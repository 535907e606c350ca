import SeqCache.Backend.Contract

/-!
# A reference runtime

The smallest runtime that meets every contract: pages are numbered in the order they are
handed out, retirement is immediate, and the radix tree is an association list.  Theorems
that assume a lawful backend are instantiated here, and the concrete runs that refute a
claim are executed over it.
-/

namespace SeqCache.Reference

/-! ## A radix tree as a list of keys -/

/-- Value of the first pair with the given key. -/
def find (tree : List (List Byte × ℕ)) (key : List Byte) : Option ℕ :=
  (tree.find? fun item => item.1 = key).map Prod.snd

/-- Search the prefixes of `query` from length `length` downwards. -/
def longestFrom (tree : List (List Byte × ℕ)) (query : List Byte) : ℕ → Option ℕ
  | 0 => find tree []
  | length + 1 =>
      match find tree (query.take (length + 1)) with
      | some value => some value
      | none => longestFrom tree query length

theorem find_cons (tree : List (List Byte × ℕ)) (key other : List Byte) (value : ℕ) :
    find ((key, value) :: tree) other = if other = key then some value else find tree other := by
  unfold find
  by_cases heq : other = key
  · simp [heq]
  · simp [heq, Ne.symm heq]

theorem find_filter (tree : List (List Byte × ℕ)) (key other : List Byte) :
    find (tree.filter fun item => item.1 ≠ key) other =
      if other = key then none else find tree other := by
  induction tree with
  | nil => simp [find]
  | cons item tree ih =>
      obtain ⟨found, value⟩ := item
      by_cases hkey : found = key
      · subst hkey
        rw [List.filter_cons_of_neg (by simp), ih, find_cons]
        split_ifs <;> rfl
      · rw [List.filter_cons_of_pos (by simpa using hkey), find_cons, ih, find_cons]
        by_cases hother : other = found
        · subst hother
          simp [hkey]
        · simp [hother]

theorem longestFrom_eq_some (tree : List (List Byte × ℕ)) (query : List Byte) (value length : ℕ) :
    longestFrom tree query length = some value ↔
      ∃ size ≤ length, find tree (query.take size) = some value ∧
        ∀ other, size < other → other ≤ length → find tree (query.take other) = none := by
  induction length with
  | zero =>
      constructor
      · intro h
        exact ⟨0, le_rfl, by simpa [longestFrom] using h, fun other hlt hle => by omega⟩
      · rintro ⟨size, hle, hfind, -⟩
        obtain rfl : size = 0 := by omega
        simpa [longestFrom] using hfind
  | succ length ih =>
      unfold longestFrom
      cases hfind : find tree (query.take (length + 1)) with
      | some found =>
          simp only [Option.some.injEq]
          constructor
          · rintro rfl
            exact ⟨length + 1, le_rfl, hfind, fun other hlt hle => by omega⟩
          · rintro ⟨size, hle, hsize, hnone⟩
            by_cases heq : size = length + 1
            · subst heq
              rw [hfind] at hsize
              exact Option.some.inj hsize
            · have := hnone (length + 1) (by omega) le_rfl
              rw [hfind] at this
              exact absurd this (by simp)
      | none =>
          simp only [ih]
          constructor
          · rintro ⟨size, hle, hsize, hnone⟩
            refine ⟨size, by omega, hsize, fun other hlt hother => ?_⟩
            by_cases heq : other = length + 1
            · rw [heq, hfind]
            · exact hnone other hlt (by omega)
          · rintro ⟨size, hle, hsize, hnone⟩
            have hne : size ≠ length + 1 := by
              rintro rfl
              rw [hfind] at hsize
              exact absurd hsize (by simp)
            exact ⟨size, by omega, hsize, fun other hlt hother => hnone other hlt (by omega)⟩

theorem longestFrom_length_eq_some (tree : List (List Byte × ℕ)) (query : List Byte)
    (value : ℕ) :
    longestFrom tree query query.length = some value ↔
      ∃ key, key <+: query ∧ find tree key = some value ∧
        ∀ other, other <+: query → (find tree other).isSome → other.length ≤ key.length := by
  rw [longestFrom_eq_some]
  constructor
  · rintro ⟨size, hle, hfind, hnone⟩
    refine ⟨query.take size, List.take_prefix _ _, hfind, fun other hother hsome => ?_⟩
    by_contra hlonger
    rw [List.length_take, min_eq_left hle, not_le] at hlonger
    have hmissing := hnone other.length hlonger hother.length_le
    rw [← List.prefix_iff_eq_take.mp hother] at hmissing
    simp [hmissing] at hsome
  · rintro ⟨key, hkey, hfind, hlongest⟩
    refine ⟨key.length, hkey.length_le, by rwa [← List.prefix_iff_eq_take.mp hkey], ?_⟩
    intro other hlt hle
    rw [← Option.not_isSome_iff_eq_none]
    intro hsome
    have := hlongest (query.take other) (List.take_prefix _ _) hsome
    rw [List.length_take, min_eq_left hle] at this
    omega

@[reducible]
def listTree : RadixTree where
  Tree := List (List Byte × ℕ)
  newTree := []
  getBytes := find
  longestPrefixValueBytes tree query := longestFrom tree query query.length
  insertK tree key value := (key, value) :: tree
  removeK tree key := tree.filter fun item => item.1 ≠ key
  getBytes_newTree _ := rfl
  getBytes_insertK tree key value other := find_cons tree key other value
  getBytes_removeK tree key other := find_filter tree key other
  longestPrefixValueBytes_eq_some := longestFrom_length_eq_some

/-! ## A backend that numbers its pages -/

/-- Pages are numbered by the allocations before them.  Retirement is immediate and fails
where `retireFails` says so; no other call fails. -/
@[reducible]
def countingBackend (pageBytes : ℕ) (pageCapacity : Option ℕ)
    (retireFails : BackendHistory ℕ ℕ Unit Unit → Bool) : PageBackend where
  Page := ℕ
  Context := ℕ
  AppendTransaction := Unit
  Error := Unit
  pageBytes := pageBytes
  pageCapacity := pageCapacity
  allocatePage history _ := .ok (handedOut history).length
  prepareAppend _ _ _ _ := .ok ()
  abortAppend _ _ _ _ _ _ := (.ok (), ())
  copyPartialPage history _ _ _ := .ok (handedOut history).length
  commitAppend _ _ _ _ := (.ok (), ())
  updatePageTable _ _ _ _ := .ok ()
  retirePages history _ pages := if retireFails history then .error ⟨(), pages⟩ else .ok ⟨0⟩
  retirementIsImmediate _ := true
  pollReclaimed _ _ := .ok 0

/-- Snapshots that are their own size. -/
@[reducible]
def sizedSnapshot : RetainedSnapshot := ⟨ℕ, id⟩

@[reducible]
def runtime (pageBytes : ℕ) (pageCapacity : Option ℕ)
    (retireFails : BackendHistory ℕ ℕ Unit Unit → Bool) : Runtime where
  toPageBackend := countingBackend pageBytes pageCapacity retireFails
  toRetainedSnapshot := sizedSnapshot
  toRadixTree := listTree
  hashOrder _ ids := ids
  hashOrder_perm _ ids := List.Perm.refl ids

theorem runtime_lawful (pageBytes : ℕ) (pageCapacity : Option ℕ)
    (retireFails : BackendHistory ℕ ℕ Unit Unit → Bool) :
    (runtime pageBytes pageCapacity retireFails).Lawful where
  retire_failure history context pages failure h := by
    simp only at h
    split_ifs at h
    cases h
    rfl
  retire_deferred history context pages outcome h := by
    simp only at h
    split_ifs at h
    cases h
    exact Nat.zero_le _
  poll_reclaimed history context reclaimed h := by
    cases h
    exact Nat.zero_le _

theorem runtime_immediateHonest (pageBytes : ℕ) (pageCapacity : Option ℕ)
    (retireFails : BackendHistory ℕ ℕ Unit Unit → Bool) :
    (runtime pageBytes pageCapacity retireFails).ImmediateHonest where
  never_deferred history prepared context pages outcome _ _ h := by
    simp only at h
    split_ifs at h
    cases h
    rfl

theorem runtime_steadyRetirement (pageBytes : ℕ) (pageCapacity : Option ℕ)
    (retireFails : BackendHistory ℕ ℕ Unit Unit → Bool) :
    (runtime pageBytes pageCapacity retireFails).SteadyRetirement := fun _ _ => rfl

end SeqCache.Reference
