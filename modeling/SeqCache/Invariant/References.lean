import SeqCache.Invariant.Quiet

/-!
# Moving reference counts

The four functions that move a reference count also keep the reclaimable bytes.  On a
cache whose reclaimable bytes are exact they keep them exact, and the loops over lists of
pages change every count by the number of times the page is listed.
-/

namespace SeqCache

open Machine Program Std

variable {R : Runtime}

namespace SequenceCache

/-- The cache with other page records and the reclaimable bytes that belong to them. -/
def putPages (cache : SequenceCache R) (pages : Pages R.Page) : SequenceCache R :=
  { cache with
    pages := pages
    stats :=
      { cache.stats with
        reclaimablePrefixOnlyBytes :=
          pages.values.countP PageRecord.isReclaimable * cache.pageBytes } }

@[simp]
theorem putPages_pageBytes (cache : SequenceCache R) (pages : Pages R.Page) :
    (cache.putPages pages).pageBytes = cache.pageBytes := rfl

@[simp]
theorem putPages_reclaimable (cache : SequenceCache R) (pages : Pages R.Page) :
    (cache.putPages pages).stats.reclaimablePrefixOnlyBytes =
      pages.values.countP PageRecord.isReclaimable * cache.pageBytes := rfl

theorem putPages_self {cache : SequenceCache R} (h : Counted cache) :
    cache.putPages cache.pages = cache := by
  unfold putPages
  rw [← h.reclaimable]

variable {cache : SequenceCache R} {pages : Pages R.Page} {id : PageId} {page : PageRecord R.Page}

theorem pageRecord_ok (hpage : cache.pages.get? id = some page) :
    cache.pageRecord id = .ok page := by
  simp only [pageRecord, hpage, okOr_some]
  rfl

theorem reads_pageRecord (hpage : cache.pages.get? id = some page) :
    (reads (·.pageRecord id) : CacheM R (PageRecord R.Page)) cache = .ok page cache :=
  reads_ok (fun cache : SequenceCache R => cache.pageRecord id) (pageRecord_ok hpage)

theorem sequenceRecord_eq_ok {id : SequenceId} {record : SequenceRecord R.AppendTransaction} :
    cache.sequenceRecord id = .ok record ↔ cache.sequences.get? id = some record := by
  unfold sequenceRecord
  cases cache.sequences.get? id with
  | none => simp only [okOr_none, reduceCtorEq]
  | some found =>
      simp only [okOr_some, Option.some.injEq]
      exact ⟨Except.ok.inj, congrArg Except.ok⟩

theorem updateSequence_ok {id : SequenceId} {record : SequenceRecord R.AppendTransaction}
    (update : SequenceRecord R.AppendTransaction → SequenceRecord R.AppendTransaction)
    (hrecord : cache.sequences.get? id = some record) :
    updateSequence id update cache =
      .ok () { cache with sequences := cache.sequences.set id (update record) } := by
  unfold updateSequence
  rw [bind_ok (reads_ok (fun cache : SequenceCache R => cache.sequenceRecord id)
    (sequenceRecord_eq_ok.mpr hrecord)), modify_run]

theorem updatePage_ok (update : PageRecord R.Page → PageRecord R.Page)
    (hpage : cache.pages.get? id = some page) :
    updatePage id update cache =
      .ok () { cache with pages := cache.pages.set id (update page) } := by
  unfold updatePage
  rw [bind_ok (reads_pageRecord hpage), modify_run]

/-! ## One reference -/

/-- Storing a record whose part in the reclaimable bytes is accounted for. -/
private theorem store_ok (update : PageRecord R.Page → PageRecord R.Page) {reclaimable : ℕ}
    (hpage : pages.get? id = some page)
    (hreclaimable : reclaimable =
      (pages.set id (update page)).values.countP PageRecord.isReclaimable * cache.pageBytes) :
    (updatePage id update >>= fun _ => updateStats fun stats =>
      { stats with reclaimablePrefixOnlyBytes := reclaimable }) (cache.putPages pages) =
      .ok () (cache.putPages (pages.set id (update page))) := by
  rw [bind_ok (updatePage_ok update hpage), updateStats_run,
    hreclaimable]
  rfl

theorem incrementActiveRef_ok (hpage : pages.get? id = some page)
    (hroom : page.activeRefs + 1 ≤ usizeMax) :
    incrementActiveRef id (cache.putPages pages) =
      .ok () (cache.putPages (pages.set id { page with activeRefs := page.activeRefs + 1 })) := by
  have hcount := Arena.countP_set PageRecord.isReclaimable
    { page with activeRefs := page.activeRefs + 1 } hpage
  have hnew : ({ page with activeRefs := page.activeRefs + 1 } :
      PageRecord R.Page).isReclaimable = false := by simp [PageRecord.isReclaimable]
  unfold incrementActiveRef
  rw [get_bind_run, bind_ok (reads_pageRecord hpage),
    checkedAdd_of_le hroom, okOr_some, pure_bind_run]
  by_cases hold : page.isReclaimable = true
  · have hpos := Arena.countP_pos_of_get? hpage hold
    have hle : cache.pageBytes ≤
        pages.values.countP PageRecord.isReclaimable * cache.pageBytes :=
      Nat.le_mul_of_pos_left _ hpos
    rw [if_pos hold, putPages_reclaimable, putPages_pageBytes, checkedSub_of_le hle, okOr_some,
      pure_bind_run]
    refine store_ok (fun page => { page with activeRefs := _ }) hpage ?_
    rw [hold, hnew] at hcount
    simp only [if_true, Bool.false_eq_true, if_false] at hcount
    rw [show pages.values.countP PageRecord.isReclaimable =
      (pages.set id { page with activeRefs := page.activeRefs + 1 }).values.countP
        PageRecord.isReclaimable + 1 by omega, Nat.succ_mul]
    exact Nat.add_sub_cancel _ _
  · rw [if_neg hold, okOr_some, pure_bind_run]
    refine store_ok (fun page => { page with activeRefs := _ }) hpage ?_
    simp only [hold, hnew, Bool.false_eq_true, if_false, Nat.add_zero] at hcount
    rw [hcount]
    rfl

theorem decrementActiveRef_ok (hpage : pages.get? id = some page) (hpos : 1 ≤ page.activeRefs)
    (hbytes : pages.values.length * cache.pageBytes ≤ usizeMax) :
    decrementActiveRef id (cache.putPages pages) =
      .ok () (cache.putPages (pages.set id { page with activeRefs := page.activeRefs - 1 })) := by
  have hcount := Arena.countP_set PageRecord.isReclaimable
    { page with activeRefs := page.activeRefs - 1 } hpage
  have hold : page.isReclaimable = false := by
    simp [PageRecord.isReclaimable]
    omega
  unfold decrementActiveRef
  rw [get_bind_run, bind_ok (reads_pageRecord hpage),
    checkedSub_of_le hpos, okOr_some, pure_bind_run]
  by_cases hnew : page.activeRefs - 1 = 0 ∧ page.prefixRefs ≠ 0
  · have hreclaimable : ({ page with activeRefs := page.activeRefs - 1 } :
        PageRecord R.Page).isReclaimable = true := by simp [PageRecord.isReclaimable, hnew]
    have hlt := Nat.mul_le_mul_right cache.pageBytes
      (Nat.succ_le_of_lt (Arena.countP_lt_of_get? hpage hold))
    rw [Nat.succ_mul] at hlt
    rw [if_pos hnew, putPages_reclaimable, putPages_pageBytes,
      checkedAdd_of_le (hlt.trans hbytes), okOr_some, pure_bind_run]
    refine store_ok (fun page => { page with activeRefs := _ }) hpage ?_
    simp only [hold, hreclaimable, if_true, Bool.false_eq_true, if_false] at hcount
    rw [Nat.add_zero] at hcount
    rw [hcount, Nat.succ_mul]
  · have hreclaimable : ({ page with activeRefs := page.activeRefs - 1 } :
        PageRecord R.Page).isReclaimable = false := by simpa [PageRecord.isReclaimable] using hnew
    rw [if_neg hnew, okOr_some, pure_bind_run]
    refine store_ok (fun page => { page with activeRefs := _ }) hpage ?_
    simp only [hold, hreclaimable, Bool.false_eq_true, if_false, Nat.add_zero] at hcount
    rw [hcount]
    rfl

/-- Retaining a page that a sequence holds does not make it reclaimable. -/
theorem incrementPrefixRef_ok (hpage : pages.get? id = some page)
    (howned : 0 < page.activeRefs + page.prefixRefs) (hroom : page.prefixRefs + 1 ≤ usizeMax) :
    incrementPrefixRef id (cache.putPages pages) =
      .ok () (cache.putPages (pages.set id { page with prefixRefs := page.prefixRefs + 1 })) := by
  have hcount := Arena.countP_set PageRecord.isReclaimable
    { page with prefixRefs := page.prefixRefs + 1 } hpage
  have hsame : ({ page with prefixRefs := page.prefixRefs + 1 } :
      PageRecord R.Page).isReclaimable = page.isReclaimable := by
    rw [Bool.eq_iff_iff]
    simp only [PageRecord.isReclaimable, Bool.and_eq_true, decide_eq_true_eq]
    omega
  unfold incrementPrefixRef
  rw [get_bind_run, bind_ok (reads_pageRecord hpage),
    checkedAdd_of_le hroom, okOr_some, pure_bind_run, if_neg (by omega), okOr_some, pure_bind_run]
  refine store_ok (fun page => { page with prefixRefs := _ }) hpage ?_
  rw [hsame] at hcount
  rw [show (pages.set id { page with prefixRefs := page.prefixRefs + 1 }).values.countP
    PageRecord.isReclaimable = pages.values.countP PageRecord.isReclaimable by omega]
  rfl

theorem decrementPrefixRef_ok (hpage : pages.get? id = some page) (hpos : 1 ≤ page.prefixRefs) :
    decrementPrefixRef id (cache.putPages pages) =
      .ok () (cache.putPages (pages.set id { page with prefixRefs := page.prefixRefs - 1 })) := by
  have hcount := Arena.countP_set PageRecord.isReclaimable
    { page with prefixRefs := page.prefixRefs - 1 } hpage
  unfold decrementPrefixRef
  rw [get_bind_run, bind_ok (reads_pageRecord hpage),
    checkedSub_of_le hpos, okOr_some, pure_bind_run]
  by_cases hlast : page.isReclaimable = true ∧ page.prefixRefs - 1 = 0
  · have hnew : ({ page with prefixRefs := page.prefixRefs - 1 } :
        PageRecord R.Page).isReclaimable = false := by simp [PageRecord.isReclaimable, hlast.2]
    have hcountpos := Arena.countP_pos_of_get? hpage hlast.1
    have hle : cache.pageBytes ≤
        pages.values.countP PageRecord.isReclaimable * cache.pageBytes :=
      Nat.le_mul_of_pos_left _ hcountpos
    rw [if_pos hlast, putPages_reclaimable, putPages_pageBytes, checkedSub_of_le hle, okOr_some,
      pure_bind_run]
    refine store_ok (fun page => { page with prefixRefs := _ }) hpage ?_
    simp only [hlast.1, hnew, if_true, Bool.false_eq_true, if_false] at hcount
    rw [show pages.values.countP PageRecord.isReclaimable =
      (pages.set id { page with prefixRefs := page.prefixRefs - 1 }).values.countP
        PageRecord.isReclaimable + 1 by omega, Nat.succ_mul]
    exact Nat.add_sub_cancel _ _
  · have hsame : ({ page with prefixRefs := page.prefixRefs - 1 } :
        PageRecord R.Page).isReclaimable = page.isReclaimable := by
      rw [Bool.eq_iff_iff]
      simp only [PageRecord.isReclaimable, Bool.and_eq_true, decide_eq_true_eq] at hlast ⊢
      omega
    rw [if_neg hlast, okOr_some, pure_bind_run]
    refine store_ok (fun page => { page with prefixRefs := _ }) hpage ?_
    rw [hsame] at hcount
    rw [show (pages.set id { page with prefixRefs := page.prefixRefs - 1 }).values.countP
      PageRecord.isReclaimable = pages.values.countP PageRecord.isReclaimable by omega]
    rfl

/-! ## Lists of references -/

/-- Run `step` on every listed page. -/
def visitEach (step : PageId → CacheM R Unit) : List PageId → CacheM R Unit
  | [] => pure ()
  | id :: rest => do
      step id
      visitEach step rest

/-- `step` changes the record of one page as `change 1` does, when `room 1` holds. -/
structure Moves (cache : SequenceCache R) (step : PageId → CacheM R Unit)
    (change : ℕ → PageRecord R.Page → PageRecord R.Page) (room : ℕ → PageRecord R.Page → Prop) :
    Prop where
  step_ok : ∀ pages id page, pages.get? id = some page →
    pages.values.length * cache.pageBytes ≤ usizeMax → room 1 page →
    step id (cache.putPages pages) = .ok () (cache.putPages (pages.set id (change 1 page)))
  change_zero : ∀ page, change 0 page = page
  change_succ : ∀ count page, change count (change 1 page) = change (count + 1) page
  room_succ : ∀ count page, room (count + 1) page → room 1 page ∧ room count (change 1 page)

theorem Moves.visitEach {step : PageId → CacheM R Unit}
    {change : ℕ → PageRecord R.Page → PageRecord R.Page} {room : ℕ → PageRecord R.Page → Prop}
    (h : Moves cache step change room) (ids : List PageId)
    (hbytes : pages.values.length * cache.pageBytes ≤ usizeMax)
    (hroom : ∀ id ∈ ids, ∃ page, pages.get? id = some page ∧ room (ids.count id) page) :
    ∃ pages', visitEach step ids (cache.putPages pages) = .ok () (cache.putPages pages') ∧
      Arena.Updated (fun id page => change (ids.count id) page) pages pages' := by
  induction ids generalizing pages with
  | nil =>
      refine ⟨pages, rfl, (Arena.Updated.refl pages).congr fun id page _ => ?_⟩
      rw [List.count_nil, h.change_zero]
  | cons id rest ih =>
      obtain ⟨page, hpage, hid⟩ := hroom id (by simp)
      rw [List.count_cons_self] at hid
      obtain ⟨hone, hrest⟩ := h.room_succ _ page hid
      have hset := Arena.Updated.set (change 1 page) hpage
      obtain ⟨pages', hrun, hupdated⟩ := ih
        (by rwa [hset.length_values]) (by
          intro other hother
          by_cases heq : other = id
          · subst heq
            exact ⟨change 1 page, by rw [Arena.get?_set hpage, if_pos rfl], hrest⟩
          · obtain ⟨found, hfound, hroom⟩ := hroom other (List.mem_cons_of_mem _ hother)
            refine ⟨found, by rw [Arena.get?_set hpage, if_neg heq, hfound], ?_⟩
            rwa [List.count_cons_of_ne (Ne.symm heq)] at hroom)
      refine ⟨pages', ?_, ?_⟩
      · rw [SequenceCache.visitEach, bind_ok (h.step_ok pages id page hpage hbytes hone)]
        exact hrun
      · refine (hset.trans hupdated).congr fun other found hfound => ?_
        by_cases heq : other = id
        · subst heq
          obtain rfl : page = found := by simpa [hpage] using hfound
          rw [if_pos rfl, List.count_cons_self, h.change_succ]
        · rw [if_neg heq, List.count_cons_of_ne (Ne.symm heq)]

theorem incrementActiveRef_moves (cache : SequenceCache R) :
    Moves cache incrementActiveRef
      (fun count page => { page with activeRefs := page.activeRefs + count })
      (fun count page => page.activeRefs + count ≤ usizeMax) := by
  refine ⟨fun pages id page hpage _ hroom => incrementActiveRef_ok hpage hroom,
    fun _ => rfl, ?_, ?_⟩
  · intro count page
    simp only [PageRecord.mk.injEq, true_and, and_true]
    omega
  · intro count page hroom
    exact ⟨by omega, by simp only; omega⟩

theorem decrementActiveRef_moves (cache : SequenceCache R) :
    Moves cache decrementActiveRef
      (fun count page => { page with activeRefs := page.activeRefs - count })
      (fun count page => count ≤ page.activeRefs) := by
  refine ⟨fun pages id page hpage hbytes hroom => decrementActiveRef_ok hpage hroom hbytes,
    fun _ => rfl, ?_, ?_⟩
  · intro count page
    simp only [PageRecord.mk.injEq, true_and, and_true]
    omega
  · intro count page hroom
    exact ⟨by omega, by simp only; omega⟩

theorem incrementPrefixRef_moves (cache : SequenceCache R) :
    Moves cache incrementPrefixRef
      (fun count page => { page with prefixRefs := page.prefixRefs + count })
      (fun count page => 0 < page.activeRefs + page.prefixRefs ∧
        page.prefixRefs + count ≤ usizeMax) := by
  refine ⟨fun pages id page hpage _ hroom => incrementPrefixRef_ok hpage hroom.1 hroom.2,
    fun _ => rfl, ?_, ?_⟩
  · intro count page
    simp only [PageRecord.mk.injEq, true_and, and_true]
    omega
  · intro count page hroom
    exact ⟨⟨hroom.1, by omega⟩, by simp only; omega⟩

theorem decrementPrefixRef_moves (cache : SequenceCache R) :
    Moves cache decrementPrefixRef
      (fun count page => { page with prefixRefs := page.prefixRefs - count })
      (fun count page => count ≤ page.prefixRefs) := by
  refine ⟨fun pages id page hpage _ hroom => decrementPrefixRef_ok hpage hroom,
    fun _ => rfl, ?_, ?_⟩
  · intro count page
    simp only [PageRecord.mk.injEq, true_and, and_true]
    omega
  · intro count page hroom
    exact ⟨by omega, by simp only; omega⟩

theorem incrementActiveRefs_eq (ids : List PageId) :
    (incrementActiveRefs ids : CacheM R Unit) = visitEach incrementActiveRef ids := by
  induction ids with
  | nil => rfl
  | cons id rest ih => rw [incrementActiveRefs, visitEach, ih]

theorem incrementPrefixRefs_eq (ids : List PageId) :
    (incrementPrefixRefs ids : CacheM R Unit) = visitEach incrementPrefixRef ids := by
  induction ids with
  | nil => rfl
  | cons id rest ih => rw [incrementPrefixRefs, visitEach, ih]

theorem decrementKept_eq (retired ids : List PageId) :
    (decrementKept retired ids : CacheM R Unit) =
      visitEach decrementPrefixRef (ids.filter (· ∉ retired)) := by
  induction ids with
  | nil => rfl
  | cons id rest ih =>
      rw [decrementKept]
      by_cases hmem : id ∈ retired
      · rw [if_pos hmem, List.filter_cons_of_neg (by simpa using hmem), ih]
      · rw [if_neg hmem, List.filter_cons_of_pos (by simpa using hmem), visitEach, ih]

/-- Giving up the references to the pages of a list that are not retired. -/
theorem decrementKept_ok {retired ids : List PageId}
    (hbytes : pages.values.length * cache.pageBytes ≤ usizeMax)
    (hgone : ∀ id ∈ retired, pages.get? id = none)
    (hkept : ∀ id ∈ ids, id ∉ retired → ∃ page, pages.get? id = some page ∧
      ids.count id ≤ page.prefixRefs) :
    ∃ pages', decrementKept retired ids (cache.putPages pages) = .ok () (cache.putPages pages') ∧
      Arena.Updated (fun id page => { page with prefixRefs := page.prefixRefs - ids.count id })
        pages pages' := by
  have hcounts : ∀ id, id ∉ retired → (ids.filter (· ∉ retired)).count id = ids.count id :=
    fun id hid => List.count_filter (by simpa using hid)
  obtain ⟨pages', hvisit, hupdated⟩ := (decrementPrefixRef_moves cache).visitEach
    (ids.filter (· ∉ retired)) hbytes (by
      intro id hid
      obtain ⟨hmem, hnotin⟩ := List.mem_filter.mp hid
      have hnotin : id ∉ retired := by simpa using hnotin
      obtain ⟨page, hpage, hcount⟩ := hkept id hmem hnotin
      exact ⟨page, hpage, by rwa [hcounts id hnotin]⟩)
  rw [decrementKept_eq]
  refine ⟨pages', hvisit, hupdated.congr fun id page hpage => ?_⟩
  rw [hcounts id]
  intro hmem
  simp [hgone id hmem] at hpage

/-- The retired pages of a sequence come in the order of its table, so walking the two
lists side by side skips exactly the retired pages. -/
theorem decrementShared_eq (retires : PageId → Bool) (ids : List PageId) :
    (decrementShared (ids.filter retires) ids : CacheM R Unit) =
      visitEach decrementActiveRef (ids.filter fun id => !retires id) := by
  induction ids with
  | nil => rfl
  | cons id rest ih =>
      cases hretires : retires id with
      | true =>
          rw [List.filter_cons_of_pos hretires, decrementShared,
            List.filter_cons_of_neg (by simp [hretires]), List.head?_cons, if_pos rfl,
            List.tail_cons, ih]
      | false =>
          have hhead : (rest.filter retires).head? ≠ some id := by
            intro hhead
            have hmem := List.mem_of_mem_head? hhead
            simp [hretires] at hmem
          rw [List.filter_cons_of_neg (by simp [hretires]), decrementShared, if_neg hhead,
            List.filter_cons_of_pos (by simp [hretires]), visitEach, ih]

end SequenceCache

end SeqCache
