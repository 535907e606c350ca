import Mathlib

/-!
# Orders of last use

A set of pairs of a time and a key, ordered by time, lists keys in the order in which
they were last used.  The abstract counterpart is a list in which a use moves a key to
the back.  The lemmas relate the two: a set is determined by its members, so its list is
known as soon as an ordered list with the same members is.
-/

namespace SeqCache

open Std

/-- The key was used just now. -/
def moveToBack {K : Type*} [DecidableEq K] (order : List K) (key : K) : List K :=
  order.filter (· ≠ key) ++ [key]

theorem mem_moveToBack {K : Type*} [DecidableEq K] {order : List K} {key other : K}
    (hne : other ≠ key) : other ∈ moveToBack order key ↔ other ∈ order := by
  simp [moveToBack, hne]

/-! ## Ordered sets as lists -/

section Ordered

variable {α : Type*} {cmp : α → α → Ordering} [TransCmp cmp]

private theorem nodup_of_ordered {items : List α}
    (h : items.Pairwise fun left right => cmp left right = .lt) : items.Nodup :=
  h.imp fun {left right} hlt heq => by
    subst heq
    rw [show cmp left left = .eq from ReflCmp.compare_self] at hlt
    exact absurd hlt (by decide)

/-- Ordered lists with the same members are equal. -/
theorem eq_of_ordered {items items' : List α}
    (h : items.Pairwise fun left right => cmp left right = .lt)
    (h' : items'.Pairwise fun left right => cmp left right = .lt)
    (hmem : ∀ item, item ∈ items ↔ item ∈ items') : items = items' := by
  have hperm : items.Perm items' :=
    (List.perm_ext_iff_of_nodup (nodup_of_ordered h) (nodup_of_ordered h')).mpr hmem
  refine hperm.eq_of_pairwise (fun left right _ _ hlt hgt => ?_) h h'
  exact absurd hgt (OrientedCmp.not_lt_of_lt hlt)

/-- Sorting the members of a set gives its list. -/
theorem insertionSort_eq_toList [LawfulEqCmp cmp] {r : α → α → Prop} [DecidableRel r]
    [Std.Total r] [IsTrans α r] [Std.Antisymm r] {set : ExtTreeSet α cmp} {items : List α}
    (hlt : ∀ left right, cmp left right = .lt → r left right) (hnodup : items.Nodup)
    (hmem : ∀ item, item ∈ items ↔ item ∈ set) : items.insertionSort r = set.toList := by
  have hordered : set.toList.Pairwise fun left right => cmp left right = .lt :=
    ExtTreeSet.ordered_toList
  have hperm : items.Perm set.toList :=
    (List.perm_ext_iff_of_nodup hnodup (nodup_of_ordered hordered)).mpr fun item => by
      rw [hmem, ExtTreeSet.mem_toList]
  exact ((List.perm_insertionSort r items).trans hperm).eq_of_pairwise'
    (List.pairwise_insertionSort r items) (hordered.imp fun {left right} => hlt left right)

end Ordered

/-- What is left of a list without duplicates is known by its members. -/
theorem eq_filter_of_sublist {α : Type*} {kept items : List α} {keep : α → Bool}
    (hsub : kept.Sublist items) (hnodup : items.Nodup)
    (hmem : ∀ item ∈ items, item ∈ kept ↔ keep item = true) :
    kept = items.filter keep := by
  have hall : kept.filter keep = kept :=
    List.filter_eq_self.mpr fun item h => (hmem item (hsub.subset h)).mp h
  have hsub' : kept.Sublist (items.filter keep) := hall ▸ hsub.filter keep
  apply hsub'.eq_of_length_le
  refine ((hnodup.filter keep).subperm fun item h => ?_).length_le
  obtain ⟨hitem, hkeep⟩ := List.mem_filter.mp h
  exact (hmem item hitem).mpr hkeep

/-! ## Initial segments -/

section Segments

variable {α : Type*} {holds : List α → Bool} {items segment : List α}

/-- Searching the initial segments finds the shortest one. -/
theorem find?_inits_eq_some :
    items.inits.find? holds = some segment ↔ segment <+: items ∧ holds segment = true ∧
      ∀ shorter, shorter <+: items → shorter.length < segment.length → holds shorter = false := by
  induction items generalizing holds segment with
  | nil =>
      rw [List.inits, List.find?_singleton, List.prefix_nil]
      constructor
      · intro h
        split_ifs at h with hholds
        obtain rfl := (Option.some.inj h).symm
        exact ⟨rfl, hholds, fun _ _ hlt => absurd hlt (Nat.not_lt_zero _)⟩
      · rintro ⟨rfl, hholds, -⟩
        rw [if_pos hholds]
  | cons item rest ih =>
      rw [List.inits_cons, List.find?_cons]
      cases hnil : holds [] with
      | true =>
          simp only [Option.some.injEq]
          constructor
          · rintro rfl
            exact ⟨List.nil_prefix, hnil, fun _ _ hlt => absurd hlt (Nat.not_lt_zero _)⟩
          · rintro ⟨-, -, hshortest⟩
            cases segment with
            | nil => rfl
            | cons first others =>
                have hempty := hshortest [] List.nil_prefix (Nat.zero_lt_succ _)
                rw [hnil] at hempty
                cases hempty
      | false =>
          simp only [List.find?_map, Option.map_eq_some_iff, ih, Function.comp_apply]
          constructor
          · rintro ⟨others, ⟨hsegment, hholds, hshortest⟩, rfl⟩
            refine ⟨List.cons_prefix_cons.mpr ⟨rfl, hsegment⟩, hholds, ?_⟩
            intro shorter hshorter hlt
            cases shorter with
            | nil => exact hnil
            | cons first others' =>
                obtain ⟨rfl, hothers⟩ := List.cons_prefix_cons.mp hshorter
                exact hshortest others' hothers (Nat.lt_of_succ_lt_succ hlt)
          · rintro ⟨hsegment, hholds, hshortest⟩
            cases segment with
            | nil =>
                rw [hnil] at hholds
                cases hholds
            | cons first others =>
                obtain ⟨rfl, hothers⟩ := List.cons_prefix_cons.mp hsegment
                refine ⟨others, ⟨hothers, hholds, ?_⟩, rfl⟩
                intro shorter hshorter hlt
                exact hshortest (first :: shorter) (List.cons_prefix_cons.mpr ⟨rfl, hshorter⟩)
                  (Nat.succ_lt_succ hlt)

/-- When longer segments do no worse, it is enough to try the whole list. -/
theorem find?_inits_eq_none
    (hmono : ∀ shorter, shorter <+: items → holds shorter = true → holds items = true) :
    items.inits.find? holds = none ↔ holds items = false := by
  rw [List.find?_eq_none]
  constructor
  · intro hnone
    exact Bool.eq_false_of_not_eq_true (hnone items ((List.mem_inits _ _).mpr List.prefix_rfl))
  · intro hall shorter hshorter hholds
    rw [hmono shorter ((List.mem_inits _ _).mp hshorter) hholds] at hall
    cases hall

end Segments

/-! ## Times of last use -/

section Timed

variable {K : Type*} [Ord K] [TransOrd K] [LawfulEqOrd K]

/-- Keys in the order of their times. -/
def keysByTime (set : ExtTreeSet (ℕ × K) lexOrd.compare) : List K := set.toList.map Prod.snd

omit [TransOrd K] [LawfulEqOrd K] in
theorem compare_lt_of_time_lt {left right : ℕ × K} (h : left.1 < right.1) :
    (lexOrd.compare left right) = .lt := by
  change (compareLex (compareOn Prod.fst) (compareOn Prod.snd) left right) = .lt
  rw [compareLex, compareOn, Nat.compare_eq_lt.mpr h]
  rfl

omit [TransOrd K] [LawfulEqOrd K] in
theorem compare_lt_cases {left right : ℕ × K} (h : (lexOrd.compare left right) = .lt) :
    left.1 < right.1 ∨ left.1 = right.1 ∧ compare left.2 right.2 = .lt := by
  change (compareLex (compareOn Prod.fst) (compareOn Prod.snd) left right) = .lt at h
  rw [compareLex, Ordering.then_eq_lt] at h
  rcases h with h | ⟨heq, h⟩
  · exact Or.inl (Nat.compare_eq_lt.mp h)
  · exact Or.inr ⟨Nat.compare_eq_eq.mp heq, h⟩

variable {set set' : ExtTreeSet (ℕ × K) lexOrd.compare}

/-- A set that lists every key at one time only lists it once. -/
theorem nodup_keysByTime (h : ∀ used used' key, (used, key) ∈ set → (used', key) ∈ set →
    used = used') : (keysByTime set).Nodup := by
  refine List.Nodup.map_on ?_ ?_
  · rintro ⟨used, key⟩ hmem ⟨used', key'⟩ hmem' heq
    obtain rfl : key = key' := heq
    rw [h used used' key (ExtTreeSet.mem_toList.mp hmem) (ExtTreeSet.mem_toList.mp hmem')]
  · refine ExtTreeSet.ordered_toList.imp fun {left right} hlt heq => ?_
    subst heq
    rw [show lexOrd.compare left left = .eq from ReflCmp.compare_self] at hlt
    exact absurd hlt (by decide)

theorem keysByTime_filter {keep : K → Bool}
    (hmem : ∀ time key, (time, key) ∈ set' ↔ (time, key) ∈ set ∧ keep key = true) :
    keysByTime set' = (keysByTime set).filter keep := by
  have hlist : set'.toList = set.toList.filter fun item => keep item.2 := by
    refine eq_of_ordered ExtTreeSet.ordered_toList (ExtTreeSet.ordered_toList.filter _) ?_
    rintro ⟨time, key⟩
    rw [List.mem_filter, ExtTreeSet.mem_toList, ExtTreeSet.mem_toList, hmem]
  rw [keysByTime, keysByTime, hlist, List.filter_map]
  rfl

/-- A key that is used after all others moves to the back. -/
theorem keysByTime_use [DecidableEq K] {now : ℕ} {used : K}
    (hbefore : ∀ time key, (time, key) ∈ set → time < now)
    (hmem : ∀ time key, (time, key) ∈ set' ↔
      (time, key) ∈ set ∧ key ≠ used ∨ time = now ∧ key = used) :
    keysByTime set' = moveToBack (keysByTime set) used := by
  have hlist : set'.toList = (set.toList.filter fun item => item.2 ≠ used) ++ [(now, used)] := by
    refine eq_of_ordered ExtTreeSet.ordered_toList ?_ ?_
    · refine List.pairwise_append.mpr ⟨ExtTreeSet.ordered_toList.filter _,
        List.pairwise_singleton _ _, ?_⟩
      intro item hitem latest hlatest
      rw [List.mem_singleton.mp hlatest]
      have hold := ExtTreeSet.mem_toList.mp (List.mem_filter.mp hitem).1
      exact compare_lt_of_time_lt (hbefore item.1 item.2 hold)
    · rintro ⟨time, key⟩
      rw [ExtTreeSet.mem_toList, hmem, List.mem_append, List.mem_filter, ExtTreeSet.mem_toList,
        List.mem_singleton, Prod.mk.injEq, decide_eq_true_iff]
  rw [keysByTime, keysByTime, hlist, List.map_append, moveToBack, List.filter_map]
  rfl

/-- Numbering the keys of a list keeps their order. -/
theorem keysByTime_number (order : List K)
    (hmem : ∀ time key, (time, key) ∈ set ↔
      ∃ index, order[index]? = some key ∧ time = index + 1) :
    keysByTime set = order := by
  have hlist : set.toList = order.zipIdx.map fun item => (item.2 + 1, item.1) := by
    refine eq_of_ordered ExtTreeSet.ordered_toList ?_ ?_
    · rw [List.pairwise_map, List.pairwise_iff_getElem]
      intro left right hleft hright hlt
      refine compare_lt_of_time_lt ?_
      simp only [List.getElem_zipIdx]
      omega
    · rintro ⟨time, key⟩
      rw [ExtTreeSet.mem_toList, hmem, List.mem_map]
      constructor
      · rintro ⟨index, hkey, rfl⟩
        exact ⟨(key, index), List.mem_zipIdx_iff_getElem?.mpr hkey, rfl⟩
      · rintro ⟨⟨found, index⟩, hfound, heq⟩
        obtain ⟨rfl, rfl⟩ := Prod.mk.inj heq
        exact ⟨index, List.mem_zipIdx_iff_getElem?.mp hfound, rfl⟩
  rw [keysByTime, hlist, List.map_map]
  exact List.zipIdx_map_fst 0 order

end Timed

end SeqCache
