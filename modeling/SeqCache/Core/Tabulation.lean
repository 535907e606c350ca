import Mathlib

/-!
# Finite maps as lists of their entries

An arena and an ordered map are both read in two ways: by key, and as the list of
their entries.  `Tabulates` relates the two readings.  The lemmas say how the list
changes, up to order, when the map changes at one key; sums and multiplicities over
the entries follow from these permutations.
-/

namespace SeqCache

variable {K V W : Type*}

/-- `items` lists the graph of the partial function `lookup`, every key once. -/
structure Tabulates (items : List (K × V)) (lookup : K → Option V) : Prop where
  keys_nodup : (items.map Prod.fst).Nodup
  mem_iff : ∀ key value, (key, value) ∈ items ↔ lookup key = some value

namespace Tabulates

variable {items items' : List (K × V)} {lookup lookup' : K → Option V}
variable {key : K} {value value' : V}

theorem nodup (h : Tabulates items lookup) : items.Nodup := h.keys_nodup.of_map

/-- Two tabulations of the same map are permutations of each other. -/
theorem perm (h : Tabulates items lookup) (h' : Tabulates items' lookup) :
    items.Perm items' := by
  rw [List.perm_ext_iff_of_nodup h.nodup h'.nodup]
  rintro ⟨key, value⟩
  rw [h.mem_iff, h'.mem_iff]

section Update

variable [DecidableEq K]

/-- Adding an entry under a fresh key. -/
theorem perm_fresh (h : Tabulates items lookup) (h' : Tabulates items' lookup')
    (hfresh : lookup key = none)
    (hlookup : ∀ other, lookup' other = if other = key then some value else lookup other) :
    items'.Perm ((key, value) :: items) := by
  have hnot : ∀ value, (key, value) ∉ items := fun value hmem => by
    simp [(h.mem_iff key value).mp hmem] at hfresh
  refine h'.perm ⟨?_, ?_⟩
  · rw [List.map_cons, List.nodup_cons]
    refine ⟨?_, h.keys_nodup⟩
    intro hmem
    obtain ⟨⟨other, found⟩, hfound, rfl⟩ := List.mem_map.mp hmem
    exact hnot found hfound
  · intro other found
    rw [List.mem_cons, h.mem_iff, hlookup, Prod.mk.injEq]
    split_ifs with heq
    · subst heq
      simp [hfresh, eq_comm]
    · simp [heq]

/-- Removing the entry of a key. -/
theorem perm_remove (h : Tabulates items lookup) (h' : Tabulates items' lookup')
    (hold : lookup key = some value)
    (hlookup : ∀ other, lookup' other = if other = key then none else lookup other) :
    items.Perm ((key, value) :: items') := by
  refine h'.perm_fresh h (by simp [hlookup]) fun other => ?_
  rw [hlookup]
  split_ifs with heq
  · rw [heq, hold]
  · rfl

/-- Replacing the value of a key. -/
theorem perm_replace (h : Tabulates items lookup) (h' : Tabulates items' lookup')
    (hold : lookup key = some value)
    (hlookup : ∀ other, lookup' other = if other = key then some value' else lookup other) :
    ∃ rest, items.Perm ((key, value) :: rest) ∧ items'.Perm ((key, value') :: rest) := by
  have hrest : Tabulates (items.filter fun item => item.1 ≠ key)
      (fun other => if other = key then none else lookup other) := by
    refine ⟨?_, ?_⟩
    · exact (List.Sublist.map Prod.fst List.filter_sublist).nodup h.keys_nodup
    · intro other found
      simp only [List.mem_filter, h.mem_iff, decide_eq_true_eq]
      split_ifs with heq <;> simp [heq]
  refine ⟨_, h.perm_remove hrest hold fun _ => rfl, ?_⟩
  refine h'.perm_remove hrest (by simp [hlookup]) fun other => ?_
  rw [hlookup]
  split_ifs <;> rfl

end Update

/-- Seeing every value through `view`. -/
theorem map (h : Tabulates items lookup) (view : V → W) :
    Tabulates (items.map fun item => (item.1, view item.2))
      (fun key => (lookup key).map view) := by
  refine ⟨?_, fun key value => ?_⟩
  · simpa [List.map_map, Function.comp_def] using h.keys_nodup
  · simp only [List.mem_map, Prod.exists, Prod.mk.injEq, Option.map_eq_some_iff]
    constructor
    · rintro ⟨other, value, hmem, rfl, rfl⟩
      exact ⟨value, (h.mem_iff other value).mp hmem, rfl⟩
    · rintro ⟨value, hvalue, rfl⟩
      exact ⟨key, value, (h.mem_iff key value).mpr hvalue, rfl, rfl⟩

/-- The total depends only on the weights under the keys. -/
theorem sum_congr (weight : V → ℕ) (h : Tabulates items lookup) (h' : Tabulates items' lookup')
    (heq : ∀ key, (lookup' key).map weight = (lookup key).map weight) :
    (items'.map fun item => weight item.2).sum = (items.map fun item => weight item.2).sum := by
  have hlookup : (fun key => (lookup' key).map weight) = fun key => (lookup key).map weight :=
    funext heq
  have hperm := (hlookup ▸ h'.map weight).perm (h.map weight)
  have hsum := (hperm.map Prod.snd).sum_eq
  simpa [List.map_map, Function.comp_def] using hsum

/-! ## Totals -/

section Totals

variable [DecidableEq K] (weight : V → ℕ)

theorem sum_fresh (h : Tabulates items lookup) (h' : Tabulates items' lookup')
    (hfresh : lookup key = none)
    (hlookup : ∀ other, lookup' other = if other = key then some value else lookup other) :
    (items'.map fun item => weight item.2).sum =
      (items.map fun item => weight item.2).sum + weight value := by
  rw [((h.perm_fresh h' hfresh hlookup).map _).sum_eq, List.map_cons, List.sum_cons,
    Nat.add_comm]

theorem sum_remove (h : Tabulates items lookup) (h' : Tabulates items' lookup')
    (hold : lookup key = some value)
    (hlookup : ∀ other, lookup' other = if other = key then none else lookup other) :
    (items.map fun item => weight item.2).sum =
      (items'.map fun item => weight item.2).sum + weight value := by
  rw [((h.perm_remove h' hold hlookup).map _).sum_eq, List.map_cons, List.sum_cons,
    Nat.add_comm]

theorem sum_replace (h : Tabulates items lookup) (h' : Tabulates items' lookup')
    (hold : lookup key = some value)
    (hlookup : ∀ other, lookup' other = if other = key then some value' else lookup other) :
    (items'.map fun item => weight item.2).sum + weight value =
      (items.map fun item => weight item.2).sum + weight value' := by
  obtain ⟨rest, hitems, hitems'⟩ := h.perm_replace h' hold hlookup
  rw [(hitems.map _).sum_eq, (hitems'.map _).sum_eq]
  simp only [List.map_cons, List.sum_cons]
  omega

/-- Removing the entries of `keys` and changing the others without changing their
weight. -/
theorem sum_removeAll {update : K → V → V} {keys : List K} {removed : List V}
    (h : Tabulates items lookup) (h' : Tabulates items' lookup')
    (hkeys : keys.Nodup) (hremoved : keys.map lookup = removed.map some)
    (hlookup : ∀ other, lookup' other =
      if other ∈ keys then none else (lookup other).map (update other))
    (hweight : ∀ key value, weight (update key value) = weight value) :
    (items.map fun item => weight item.2).sum =
      (items'.map fun item => weight item.2).sum + (removed.map weight).sum := by
  induction keys generalizing items lookup removed with
  | nil =>
      obtain rfl : removed = [] := by simpa using hremoved.symm
      have hmap : items'.Perm (items.map fun item => (item.1, update item.1 item.2)) := by
        refine h'.perm ⟨?_, ?_⟩
        · simpa [List.map_map, Function.comp_def] using h.keys_nodup
        · intro key value
          simp only [List.mem_map, Prod.exists, Prod.mk.injEq, hlookup, List.not_mem_nil,
            if_false, Option.map_eq_some_iff]
          constructor
          · rintro ⟨other, found, hmem, rfl, rfl⟩
            exact ⟨found, (h.mem_iff other found).mp hmem, rfl⟩
          · rintro ⟨found, hfound, rfl⟩
            exact ⟨key, found, (h.mem_iff key found).mpr hfound, rfl, rfl⟩
      rw [(hmap.map _).sum_eq]
      simp [List.map_map, Function.comp_def, hweight]
  | cons key keys ih =>
      obtain ⟨hnot, hkeys⟩ := List.nodup_cons.mp hkeys
      obtain ⟨value, removed, rfl⟩ : ∃ value rest, removed = value :: rest := by
        cases removed with
        | nil => simp at hremoved
        | cons value rest => exact ⟨value, rest, rfl⟩
      simp only [List.map_cons, List.cons.injEq] at hremoved
      have hrest : Tabulates (items.filter fun item => item.1 ≠ key)
          (fun other => if other = key then none else lookup other) := by
        refine ⟨(List.Sublist.map Prod.fst List.filter_sublist).nodup h.keys_nodup, ?_⟩
        intro other found
        simp only [List.mem_filter, h.mem_iff, decide_eq_true_eq]
        split_ifs with heq <;> simp [heq]
      have hstep := @ih _ _ removed hrest hkeys ?_ ?_
      · rw [sum_remove weight h hrest hremoved.1 fun _ => rfl, hstep]
        simp only [List.map_cons, List.sum_cons]
        omega
      · rw [← hremoved.2]
        refine List.map_congr_left fun other hmem => if_neg ?_
        rintro rfl
        exact hnot hmem
      · intro other
        rw [hlookup]
        by_cases heq : other = key
        · simp [heq]
        · simp [heq]

end Totals

end Tabulates

/-! ## Ordered maps -/

section Ordered

open Std

variable {cmp : K → K → Ordering} [TransCmp cmp] [LawfulEqCmp cmp]

theorem tabulates_toList (map : ExtTreeMap K V cmp) :
    Tabulates map.toList (fun key => map[key]?) := by
  refine ⟨?_, fun key value => ExtTreeMap.mem_toList_iff_getElem?_eq_some⟩
  rw [List.Nodup, List.pairwise_map]
  refine ExtTreeMap.distinct_keys_toList.imp fun hne heq => hne ?_
  rw [heq]
  exact ReflCmp.compare_self

/-- Total weight of the values of a map. -/
def mapTotal (weight : V → ℕ) (map : ExtTreeMap K V cmp) : ℕ :=
  (map.toList.map fun item => weight item.2).sum

omit [LawfulEqCmp cmp] in
@[simp]
theorem mapTotal_empty (weight : V → ℕ) : mapTotal weight (∅ : ExtTreeMap K V cmp) = 0 := by
  have hnil : (∅ : ExtTreeMap K V cmp).toList = [] := List.isEmpty_iff.mp (by simp)
  rw [mapTotal, hnil]
  rfl

variable {map map' : ExtTreeMap K V cmp} {key : K} {value old : V}

/-- The total depends only on the weights under the keys. -/
theorem mapTotal_congr (weight : V → ℕ)
    (h : ∀ key : K, map'[key]?.map weight = map[key]?.map weight) :
    mapTotal weight map' = mapTotal weight map := by
  exact (tabulates_toList map).sum_congr weight (tabulates_toList map') h

/-- Some entry contributes to a positive total. -/
theorem exists_of_mapTotal_pos {weight : V → ℕ} (h : 0 < mapTotal weight map) :
    ∃ (key : K) (value : V), map[key]? = some value ∧ 0 < weight value := by
  obtain ⟨term, hmem, hpos⟩ := List.exists_mem_ne_zero_of_sum_ne_zero h.ne'
  obtain ⟨⟨key, value⟩, hentry, rfl⟩ := List.mem_map.mp hmem
  exact ⟨key, value, ((tabulates_toList map).mem_iff key value).mp hentry,
    Nat.pos_of_ne_zero hpos⟩

variable [DecidableEq K]

theorem getElem?_insert_eq (other : K) :
    (map.insert key value)[other]? = if other = key then some value else map[other]? := by
  rw [ExtTreeMap.getElem?_insert]
  by_cases heq : other = key
  · simp [heq]
  · rw [if_neg heq, if_neg]
    exact fun hcmp => heq (LawfulEqCmp.eq_of_compare hcmp).symm

theorem getElem?_erase_eq (other : K) :
    (map.erase key)[other]? = if other = key then none else map[other]? := by
  rw [ExtTreeMap.getElem?_erase]
  by_cases heq : other = key
  · simp [heq]
  · rw [if_neg heq, if_neg]
    exact fun hcmp => heq (LawfulEqCmp.eq_of_compare hcmp).symm

theorem mapTotal_insert (weight : V → ℕ) (hfresh : map[key]? = none) :
    mapTotal weight (map.insert key value) = mapTotal weight map + weight value :=
  (tabulates_toList map).sum_fresh weight (tabulates_toList _) hfresh getElem?_insert_eq

theorem mapTotal_erase (weight : V → ℕ) (hold : map[key]? = some old) :
    mapTotal weight map = mapTotal weight (map.erase key) + weight old :=
  (tabulates_toList map).sum_remove weight (tabulates_toList _) hold getElem?_erase_eq

/-- The map without the listed keys. -/
def eraseAll (map : ExtTreeMap K V cmp) (keys : List K) : ExtTreeMap K V cmp :=
  keys.foldl (fun map key => map.erase key) map

theorem getElem?_eraseAll (keys : List K) (other : K) :
    (eraseAll map keys)[other]? = if other ∈ keys then none else map[other]? := by
  induction keys generalizing map with
  | nil => simp [eraseAll]
  | cons key keys ih =>
      rw [eraseAll, List.foldl_cons, ← eraseAll, ih, getElem?_erase_eq]
      by_cases heq : other = key <;> by_cases hmem : other ∈ keys <;> simp [heq, hmem]

/-- Values of the listed keys. -/
def valuesOf (map : ExtTreeMap K V cmp) (keys : List K) : List V :=
  keys.filterMap fun key => map[key]?

omit [LawfulEqCmp cmp] [DecidableEq K] in
theorem map_getElem?_valuesOf {keys : List K}
    (hlive : ∀ key ∈ keys, ∃ value, map[key]? = some value) :
    keys.map (fun key => map[key]?) = (valuesOf map keys).map some := by
  induction keys with
  | nil => rfl
  | cons key keys ih =>
      obtain ⟨value, hvalue⟩ := hlive key (by simp)
      have htail := ih fun other hmem => hlive other (List.mem_cons_of_mem _ hmem)
      simp [valuesOf, hvalue, htail]

theorem mapTotal_eraseAll (weight : V → ℕ) {keys : List K} (hkeys : keys.Nodup)
    (hlive : ∀ key ∈ keys, ∃ value, map[key]? = some value) :
    mapTotal weight map =
      mapTotal weight (eraseAll map keys) + ((valuesOf map keys).map weight).sum :=
  (tabulates_toList map).sum_removeAll weight
    (tabulates_toList _) hkeys (map_getElem?_valuesOf hlive)
    (fun other => by rw [getElem?_eraseAll]; simp) fun _ _ => rfl

theorem size_eraseAll {keys : List K} (hkeys : keys.Nodup)
    (hlive : ∀ key ∈ keys, ∃ value, map[key]? = some value) :
    map.size = (eraseAll map keys).size + keys.length := by
  have htotal : ∀ map : ExtTreeMap K V cmp, mapTotal (fun _ => 1) map = map.size := by
    intro map
    simp [mapTotal, ExtTreeMap.length_toList]
  have hlength : (valuesOf map keys).length = keys.length := by
    simpa using congrArg List.length (map_getElem?_valuesOf hlive).symm
  rw [← htotal, ← htotal, mapTotal_eraseAll _ hkeys hlive]
  simp [hlength]

end Ordered

end SeqCache
