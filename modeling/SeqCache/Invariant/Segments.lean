import SeqCache.Invariant.Growth

/-!
# Rows of a finalized append

Which segments a partial commit keeps, how they change the page records, and that the
sequence is consistent afterwards.  An abort is the commit of no rows.
-/

namespace SeqCache

open Machine Std

/-! ## Segments -/

section Segments

variable {pageTokens position rows committed n : ℕ}

theorem map_page_segmentsFrom (ids : List PageId) :
    (segmentsFrom pageTokens position rows n ids).map AppendSegment.page = ids := by
  induction ids generalizing n with
  | nil => rfl
  | cons id rest ih => rw [segmentsFrom, List.map_cons, ih, segmentAt]

/-- Looking up the segment of a page by its place in the table. -/
theorem find?_segmentsFrom {ids : List PageId} (hnodup : ids.Nodup) {index : ℕ} {id : PageId}
    (hid : ids[index]? = some id) :
    (segmentsFrom pageTokens position rows n ids).find? (fun segment => segment.page = id) =
      some (segmentAt pageTokens position rows (n + index) id) := by
  induction ids generalizing n index with
  | nil => simp at hid
  | cons head rest ih =>
      obtain ⟨hnot, hrest⟩ := List.nodup_cons.mp hnodup
      rw [segmentsFrom]
      cases index with
      | zero =>
          rw [List.getElem?_cons_zero, Option.some.injEq] at hid
          subst hid
          rw [List.find?_cons_of_pos (by simp [segmentAt]), Nat.add_zero]
      | succ index =>
          rw [List.getElem?_cons_succ] at hid
          have hne : head ≠ id := fun heq => hnot (heq ▸ List.mem_of_getElem? hid)
          rw [List.find?_cons_of_neg (by simp [segmentAt, hne]), ih hrest hid,
            Nat.add_right_comm, Nat.add_assoc]

theorem mem_segmentsFrom {pageTokens position rows n : ℕ} {ids : List PageId}
    {segment : AppendSegment} (h : segment ∈ segmentsFrom pageTokens position rows n ids) :
    ∃ index id, ids[index]? = some id ∧
      segment = segmentAt pageTokens position rows (n + index) id := by
  induction ids generalizing n with
  | nil => cases h
  | cons id rest ih =>
      rw [segmentsFrom] at h
      rcases List.mem_cons.mp h with rfl | h
      · exact ⟨0, id, rfl, rfl⟩
      · obtain ⟨index, other, hindex, rfl⟩ := ih h
        refine ⟨index + 1, other, hindex, ?_⟩
        rw [Nat.add_assoc, Nat.add_comm 1 index]

/-- Segments of the first `committed` rows of an append. -/
def segmentsDone (pageTokens position committed : ℕ) (held : List PageId) : List AppendSegment :=
  if committed = 0 then []
  else segmentsOf pageTokens position committed (held.take ((position + committed) ⌈/⌉ pageTokens))

private theorem committedSegments_from (hpos : 0 < pageTokens) (hcommitted : 0 < committed)
    (hle : committed ≤ rows) (ids : List PageId) :
    SequenceCache.committedSegments (segmentsFrom pageTokens position rows n ids) committed =
      segmentsFrom pageTokens position committed n
        (ids.take ((position + committed) ⌈/⌉ pageTokens - n)) := by
  unfold SequenceCache.committedSegments
  induction ids generalizing n with
  | nil => simp [segmentsFrom]
  | cons id rest ih =>
      rw [segmentsFrom]
      by_cases hn : n < (position + committed) ⌈/⌉ pageTokens
      · have hstart := (lt_ceilDiv_iff hpos).mp hn
        have hkeep : (segmentAt pageTokens position rows n id).inputOffset < committed := by
          simp only [segmentAt]
          omega
        obtain ⟨count, hcount⟩ : ∃ count, (position + committed) ⌈/⌉ pageTokens - n = count + 1 :=
          ⟨_, (Nat.succ_pred_eq_of_pos (by omega)).symm⟩
        rw [List.takeWhile_cons_of_pos (by simpa using hkeep), List.map_cons, hcount,
          List.take_succ_cons, segmentsFrom, ih]
        congr 1
        · simp only [segmentAt, AppendSegment.mk.injEq, true_and]
          omega
        · congr 2
          omega
      · have hbeyond := (lt_ceilDiv_iff hpos).not.mp hn
        have hdrop : ¬ (segmentAt pageTokens position rows n id).inputOffset < committed := by
          simp only [segmentAt]
          omega
        rw [List.takeWhile_cons_of_neg (by simpa using hdrop), List.map_nil,
          Nat.sub_eq_zero_of_le (by omega), List.take_zero, segmentsFrom]

theorem committedSegments_eq (hpos : 0 < pageTokens) (hle : committed ≤ rows)
    (held : List PageId) :
    SequenceCache.committedSegments (segmentsOf pageTokens position rows held) committed =
      segmentsDone pageTokens position committed held := by
  unfold segmentsDone
  split_ifs with hzero
  · subst hzero
    unfold SequenceCache.committedSegments
    cases segmentsOf pageTokens position rows held <;> simp
  · unfold segmentsOf
    rw [committedSegments_from hpos (Nat.pos_of_ne_zero hzero) hle, List.drop_take]

/-- Pages that the first `committed` rows of an append fill. -/
def filledPages (pageTokens position committed : ℕ) (held : List PageId) : List PageId :=
  (held.take ((position + committed) / pageTokens)).drop (position / pageTokens)

private theorem filled_segmentsFrom (hpos : 0 < pageTokens) (ids : List PageId)
    (hstart : position < (n + 1) * pageTokens)
    (hlength : n + ids.length ≤ (position + committed) ⌈/⌉ pageTokens) :
    ((segmentsFrom pageTokens position committed n ids).filter fun segment =>
        segment.pageOffset + segment.rows = pageTokens).map AppendSegment.page =
      ids.take ((position + committed) / pageTokens - n) := by
  induction ids generalizing n with
  | nil => simp [segmentsFrom]
  | cons id rest ih =>
      rw [List.length_cons] at hlength
      have hin : n * pageTokens < position + committed :=
        (lt_ceilDiv_iff hpos).mp (by omega)
      have hnext := @ih (n + 1) (by rw [Nat.add_mul]; omega) (by omega)
      have hsucc : (n + 1) * pageTokens = n * pageTokens + pageTokens := Nat.succ_mul _ _
      have hrows : (segmentAt pageTokens position committed n id).pageOffset +
          (segmentAt pageTokens position committed n id).rows =
            min (position + committed) ((n + 1) * pageTokens) - n * pageTokens := by
        simp only [segmentAt]
        omega
      rw [segmentsFrom]
      by_cases hfull : (n + 1) * pageTokens ≤ position + committed
      · have hlt : n + 1 ≤ (position + committed) / pageTokens :=
          (Nat.le_div_iff_mul_le hpos).mpr hfull
        rw [List.filter_cons_of_pos (by rw [decide_eq_true_iff, hrows]; omega), List.map_cons,
          hnext, show (position + committed) / pageTokens - n =
            (position + committed) / pageTokens - (n + 1) + 1 by omega, List.take_succ_cons]
        rfl
      · have hge : (position + committed) / pageTokens < n + 1 :=
          (Nat.div_lt_iff_lt_mul hpos).mpr (Nat.not_le.mp hfull)
        rw [List.filter_cons_of_neg (by rw [decide_eq_true_iff, hrows]; omega), hnext,
          Nat.sub_eq_zero_of_le (Nat.le_of_lt_succ hge),
          Nat.sub_eq_zero_of_le (Nat.le_of_lt hge), List.take_zero, List.take_zero]

/-- The committed segments that end at a page boundary are those of the filled pages. -/
theorem filled_segmentsDone (hpos : 0 < pageTokens) (held : List PageId) :
    ((segmentsDone pageTokens position committed held).filter fun segment =>
        segment.pageOffset + segment.rows = pageTokens).map AppendSegment.page =
      filledPages pageTokens position committed held := by
  unfold segmentsDone filledPages
  split_ifs with hzero
  · subst hzero
    rw [Nat.add_zero, List.drop_take, Nat.sub_self, List.take_zero]
    rfl
  have hle : (position + committed) / pageTokens ≤ (position + committed) ⌈/⌉ pageTokens :=
    div_le_ceilDiv hpos
  rw [segmentsOf, filled_segmentsFrom hpos]
  · rw [List.drop_take, List.drop_take, List.take_take, Nat.min_eq_left (by omega)]
  · rw [Nat.mul_comm]
    exact Nat.lt_mul_div_succ position hpos
  · rw [List.length_drop, List.length_take]
    have := ceilDiv_mono hpos (Nat.le_add_right position committed)
    have := @div_le_ceilDiv pageTokens hpos position
    omega

end Segments

/-! ## Marking pages -/

/-- A page after the rows of its segment were committed. -/
def PageRecord.mark {Page : Type} (pageTokens : ℕ) (segments : List AppendSegment) (id : PageId)
    (page : PageRecord Page) : PageRecord Page :=
  match segments.find? fun segment => segment.page = id with
  | some segment =>
      { page with
        validTokens := segment.pageOffset + segment.rows
        sealed := segment.pageOffset + segment.rows = pageTokens }
  | none => page

section Mark

variable {Page : Type} {pageTokens : ℕ} {segments : List AppendSegment} {id : PageId}
  (page : PageRecord Page)

@[simp]
theorem PageRecord.mark_activeRefs : (page.mark pageTokens segments id).activeRefs =
    page.activeRefs := by
  unfold PageRecord.mark
  split <;> rfl

@[simp]
theorem PageRecord.mark_prefixRefs : (page.mark pageTokens segments id).prefixRefs =
    page.prefixRefs := by
  unfold PageRecord.mark
  split <;> rfl

@[simp]
theorem PageRecord.mark_physical : (page.mark pageTokens segments id).physical =
    page.physical := by
  unfold PageRecord.mark
  split <;> rfl

theorem PageRecord.mark_of_not_mem (h : id ∉ segments.map AppendSegment.page) :
    page.mark pageTokens segments id = page := by
  unfold PageRecord.mark
  rw [List.find?_eq_none.mpr]
  intro segment hmem heq
  exact h (of_decide_eq_true heq ▸ List.mem_map_of_mem hmem)

end Mark

/-- The committed rows of the `n`-th page, for the pages that remain in the table. -/
theorem PageRecord.mark_held {Page : Type} {pageTokens position committed n : ℕ}
    (hpos : 0 < pageTokens) {held : List PageId} (hnodup : held.Nodup) {id : PageId}
    (hid : held[n]? = some id) (hn : n < (position + committed) ⌈/⌉ pageTokens)
    (page : PageRecord Page) :
    page.mark pageTokens (segmentsDone pageTokens position committed held) id =
      if committed = 0 ∨ n < position / pageTokens then page
      else
        { page with
          validTokens := validRows pageTokens (position + committed) n
          sealed := validRows pageTokens (position + committed) n = pageTokens } := by
  unfold segmentsDone
  by_cases hzero : committed = 0
  · rw [if_pos hzero, if_pos (Or.inl hzero)]
    rfl
  rw [if_neg hzero]
  have htake : (held.take ((position + committed) ⌈/⌉ pageTokens))[n]? = some id := by
    rw [List.getElem?_take, if_pos hn, hid]
  by_cases hbefore : n < position / pageTokens
  · rw [if_pos (Or.inr hbefore)]
    refine PageRecord.mark_of_not_mem page ?_
    unfold segmentsOf
    rw [map_page_segmentsFrom]
    intro hmem
    obtain ⟨index, hindex⟩ := List.getElem?_of_mem hmem
    rw [List.getElem?_drop] at hindex
    have hlt := (List.getElem?_eq_some_iff.mp htake).1
    have heq := (List.getElem?_inj hlt (hnodup.sublist (List.take_sublist _ _))).mp
      (htake.trans hindex.symm)
    omega
  · rw [if_neg (by simp [hzero, hbefore])]
    have hfind := @find?_segmentsFrom pageTokens position committed (position / pageTokens) _
      ((hnodup.sublist (List.take_sublist _ _)).sublist (List.drop_sublist _ _)) _ _ (by
        rw [List.getElem?_drop, Nat.add_sub_cancel' (Nat.not_lt.mp hbefore), htake])
    rw [Nat.add_sub_cancel' (Nat.not_lt.mp hbefore)] at hfind
    have hstart := (lt_ceilDiv_iff hpos).mp hn
    have hposition : position < (n + 1) * pageTokens := by
      rw [Nat.mul_comm]
      exact (Nat.lt_mul_div_succ position hpos).trans_le
        (Nat.mul_le_mul_left _ (Nat.succ_le_succ (Nat.not_lt.mp hbefore)))
    have hrows : (segmentAt pageTokens position committed n id).pageOffset +
        (segmentAt pageTokens position committed n id).rows =
          validRows pageTokens (position + committed) n := by
      simp only [segmentAt, validRows]
      rw [Nat.succ_mul] at hposition ⊢
      omega
    unfold PageRecord.mark segmentsOf
    rw [hfind]
    simp only [hrows]

/-! ## The sequence afterwards -/

/-- New pages that a commit of `committed` rows keeps. -/
def keptPages {Transaction : Type} (pageTokens : ℕ) (record : SequenceRecord Transaction)
    (pending : PendingAppend Transaction) (committed : ℕ) : List PageId :=
  pending.newPages.take ((record.position + committed) ⌈/⌉ pageTokens - record.pages.length)

/-- New pages that a commit of `committed` rows gives back. -/
def releasedPages {Transaction : Type} (pageTokens : ℕ) (record : SequenceRecord Transaction)
    (pending : PendingAppend Transaction) (committed : ℕ) : List PageId :=
  pending.newPages.drop ((record.position + committed) ⌈/⌉ pageTokens - record.pages.length)

/-- The record of a sequence after its append was finalized. -/
def SequenceRecord.settle {Transaction : Type} (record : SequenceRecord Transaction)
    (pageTokens : ℕ) (pending : PendingAppend Transaction) (committed : ℕ) :
    SequenceRecord Transaction :=
  { record with
    pages := record.pages ++ keptPages pageTokens record pending committed
    position := record.position + committed
    reservedPages := record.reservedPages +
      (releasedPages pageTokens record pending committed).length
    pending := none }

section Settle

variable {Page Transaction : Type} {orphans orphans' : List PageId} {pageTokens : ℕ}
variable {pages pages' : Pages Page} {record : SequenceRecord Transaction}
variable {pending : PendingAppend Transaction} {committed : ℕ}

/-- An abort keeps none of the new pages. -/
theorem keptPages_zero (hlength : record.pages.length = record.position ⌈/⌉ pageTokens) :
    keptPages pageTokens record pending 0 = [] := by
  rw [keptPages, Nat.add_zero, hlength, Nat.sub_self, List.take_zero]

/-- An abort gives all of the new pages back. -/
theorem releasedPages_zero (hlength : record.pages.length = record.position ⌈/⌉ pageTokens) :
    releasedPages pageTokens record pending 0 = pending.newPages := by
  rw [releasedPages, Nat.add_zero, hlength, Nat.sub_self, List.drop_zero]

theorem kept_append_released (pageTokens : ℕ) (record : SequenceRecord Transaction)
    (pending : PendingAppend Transaction) (committed : ℕ) :
    keptPages pageTokens record pending committed ++
      releasedPages pageTokens record pending committed = pending.newPages :=
  List.take_append_drop _ _

variable (hpos : 0 < pageTokens) (h : SequenceOk orphans pageTokens pages record)
  (hpending : record.pending = some pending) (hcommitted : committed ≤ pending.rows)

include hpos h hpending hcommitted

theorem length_keptPages : record.pages.length +
    (keptPages pageTokens record pending committed).length =
      (record.position + committed) ⌈/⌉ pageTokens := by
  have hlength := (h.pending pending hpending).length_held
  have hmono := ceilDiv_mono hpos (Nat.le_add_right record.position committed)
  have hmono' := ceilDiv_mono hpos (Nat.add_le_add_left hcommitted record.position)
  rw [← h.length_pages] at hmono
  unfold keptPages
  rw [List.length_take]
  omega

/-- Pages of the new table, by their place in it. -/
theorem getElem?_table {n : ℕ} {id : PageId}
    (hid : (record.pages ++ keptPages pageTokens record pending committed)[n]? = some id) :
    record.heldPages[n]? = some id ∧ n < (record.position + committed) ⌈/⌉ pageTokens := by
  have hlength := length_keptPages hpos h hpending hcommitted
  have hn := (List.getElem?_eq_some_iff.mp hid).1
  rw [List.length_append] at hn
  refine ⟨?_, by omega⟩
  rw [heldPages_of_pending_some hpending,
    ← kept_append_released pageTokens record pending committed,
    ← List.append_assoc, List.getElem?_append_left (by rw [List.length_append]; exact hn)]
  exact hid

theorem SequenceOk.settle (hget : ∀ id ∈ record.pages ++ keptPages pageTokens record
      pending committed,
      ∀ page, pages.get? id = some page → pages'.get? id = some (page.mark pageTokens
        (segmentsDone pageTokens record.position committed record.heldPages) id)) :
    SequenceOk orphans pageTokens pages' (record.settle pageTokens pending committed) := by
  have hok := h.pending pending hpending
  have hlength := length_keptPages hpos h hpending hcommitted
  have hsum := congrArg List.length
    (kept_append_released pageTokens record pending committed)
  rw [List.length_append] at hsum
  have hold := heldPages_of_pending_some hpending
  have hnew : (record.settle pageTokens pending committed).heldPages =
      record.pages ++ keptPages pageTokens record pending committed := List.append_nil _
  have hle := h.length_le
  have htotal := h.length_total
  rw [hold, List.length_append] at hle htotal
  refine ⟨?_, h.bounded, ?_, ?_, ?_, ?_, ?_, ?_⟩
  · have := hok.rows_le
    simp only [SequenceRecord.settle]
    omega
  · simp only [SequenceRecord.settle, List.length_append]
    exact hlength
  · rw [hnew, List.length_append]
    simp only [SequenceRecord.settle]
    omega
  · intro hnil
    have := htotal hnil
    rw [hnew, List.length_append]
    simp only [SequenceRecord.settle]
    omega
  · rw [hnew]
    refine h.nodup.sublist ?_
    rw [hold]
    exact List.Sublist.append_left (List.take_sublist _ _) _
  · intro n id hid
    rw [hnew] at hid
    obtain ⟨hheld, hn⟩ := getElem?_table hpos h hpending hcommitted hid
    obtain ⟨page, hpage, hpageOk⟩ := h.held n id hheld
    refine ⟨_, hget id (List.mem_of_getElem? hid) page hpage, ?_⟩
    rw [PageRecord.mark_held hpos h.nodup hheld hn]
    change HeldOk orphans pageTokens (record.position + committed) false n _
    have hdiv := Nat.div_mul_le_self record.position pageTokens
    split_ifs with hkeep
    · have hsame : validRows pageTokens (record.position + committed) n =
          validRows pageTokens record.position n := by
        unfold validRows
        rcases hkeep with hzero | hbefore
        · rw [hzero, Nat.add_zero]
        · have := Nat.mul_le_mul_right pageTokens (Nat.succ_le_of_lt hbefore)
          rw [Nat.succ_mul] at this
          omega
      refine ⟨hpageOk.storage, fun hfull => ?_, by simp, fun hnil => hsame ▸ hpageOk.rows hnil⟩
      apply hpageOk.complete
      rcases hkeep with hzero | hbefore
      · omega
      · exact (Nat.mul_le_mul_right pageTokens (Nat.succ_le_of_lt hbefore)).trans hdiv
    · refine ⟨hpageOk.storage, fun hfull => ?_, by simp, fun _ => ⟨rfl, by simp⟩⟩
      have hrows : validRows pageTokens (record.position + committed) n = pageTokens := by
        unfold validRows
        rw [Nat.succ_mul] at hfull
        omega
      simp [hrows]
  · intro other hother
    cases hother

omit hcommitted in
/-- The sequence after a finalization that lost its new pages. -/
theorem SequenceOk.torn (hne : orphans' ≠ [])
    (hget : ∀ id ∈ record.pages, ∀ page, pages.get? id = some page →
      pages'.get? id = some (page.mark pageTokens
        (segmentsDone pageTokens record.position committed record.heldPages) id)) :
    SequenceOk orphans' pageTokens pages'
      ({ record with pending := none } : SequenceRecord Transaction) := by
  have hold := heldPages_of_pending_some hpending
  have hnew : ({ record with pending := none } : SequenceRecord Transaction).heldPages =
      record.pages := List.append_nil _
  have hle := h.length_le
  rw [hold, List.length_append] at hle
  refine ⟨h.position_le, h.bounded, h.length_pages, ?_, fun hnil => absurd hnil hne, ?_, ?_, ?_⟩
  · rw [hnew]
    simp only
    omega
  · rw [hnew]
    exact (hold ▸ h.nodup).of_append_left
  · intro n id hid
    rw [hnew] at hid
    have hindex := (List.getElem?_eq_some_iff.mp hid).1
    have hheld : record.heldPages[n]? = some id := by
      rw [hold, List.getElem?_append_left hindex, hid]
    obtain ⟨page, hpage, hpageOk⟩ := h.held n id hheld
    have hn : n < (record.position + committed) ⌈/⌉ pageTokens := by
      have := ceilDiv_mono hpos (Nat.le_add_right record.position committed)
      rw [← h.length_pages] at this
      omega
    refine ⟨_, hget id (List.mem_of_getElem? hid) page hpage, ?_⟩
    rw [PageRecord.mark_held hpos h.nodup hheld hn]
    refine ⟨?_, fun hfull => ?_, by simp, fun hnil => absurd hnil hne⟩
    · split_ifs
      · exact hpageOk.storage
      · exact hpageOk.storage
    · rw [if_pos]
      · exact hpageOk.complete hfull
      · refine Or.inr ?_
        exact (Nat.le_div_iff_mul_le hpos).mpr hfull
  · intro other hother
    cases hother

end Settle

end SeqCache
