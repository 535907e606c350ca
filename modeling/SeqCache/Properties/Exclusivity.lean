import SeqCache.Run.Reachable

/-!
# Writers own what they write

While an append is pending, the pages it addresses belong to its sequence alone and the
rows it addresses are not valid yet.  Nothing locks them: that a retention, a branch or an
eviction never touches such a page follows from where positions stand.  Along a run, rows
that became valid stay valid and complete pages stay complete.
-/

namespace SeqCache

open Machine Program Std

variable {R : Runtime}

namespace SequenceCache

/-! ## Rows along a run -/

/-- Pages that are live before and after keep their seal and, when `intact` holds, their
rows. -/
def KeepsRows (intact : Prop) (cache cache' : SequenceCache R) : Prop :=
  ∀ id page page', cache.pages.get? id = some page → cache'.pages.get? id = some page' →
    (page.sealed = true → page'.sealed = true) ∧
      (intact → page.validTokens ≤ page'.validTokens)

namespace KeepsRows

variable {intact : Prop} {cache cache' cache'' : SequenceCache R}

theorem ofSame (h : ∀ id page page', cache.pages.get? id = some page →
      cache'.pages.get? id = some page' →
      page'.sealed = page.sealed ∧ page'.validTokens = page.validTokens) :
    KeepsRows intact cache cache' := by
  intro id page page' hpage hpage'
  obtain ⟨hsealed, hvalid⟩ := h id page page' hpage hpage'
  exact ⟨fun hold => hsealed.trans hold, fun _ => hvalid.ge⟩

theorem ofPages (h : cache'.pages = cache.pages) : KeepsRows intact cache cache' := by
  refine ofSame fun id page page' hpage hpage' => ?_
  rw [h, hpage] at hpage'
  rw [Option.some.inj hpage']
  exact ⟨rfl, rfl⟩

theorem mono {intact' : Prop} (h : KeepsRows intact cache cache') (himp : intact' → intact) :
    KeepsRows intact' cache cache' := by
  intro id page page' hpage hpage'
  obtain ⟨hsealed, hvalid⟩ := h id page page' hpage hpage'
  exact ⟨hsealed, fun hintact => hvalid (himp hintact)⟩

/-- A page that is live at both ends was live in between. -/
theorem trans (h : KeepsRows intact cache cache') (h' : KeepsRows intact cache' cache'')
    (hfollows : Follows cache cache') (hfollows' : Follows cache' cache'') :
    KeepsRows intact cache cache'' := by
  intro id page page'' hpage hpage''
  rcases hfollows.pages.live_or_expired hpage with ⟨page', hpage'⟩ | hexpired
  · obtain ⟨hsealed, hvalid⟩ := h id page page' hpage hpage'
    obtain ⟨hsealed', hvalid'⟩ := h' id page' page'' hpage' hpage''
    exact ⟨fun hold => hsealed' (hsealed hold),
      fun hintact => (hvalid hintact).trans (hvalid' hintact)⟩
  · rw [(hfollows'.pages.expired hexpired).get?] at hpage''
    cases hpage''

end KeepsRows

section Marks

variable {orphans : List PageId} {stray : List TokenBlockId} {cache cache' : SequenceCache R}
variable {sequence : SequenceId} {record : SequenceRecord R.AppendTransaction}
variable {pending : PendingAppend R.AppendTransaction} {committed : ℕ} {event : R.Event}

/-- Committing rows only extends what is valid. -/
theorem mark_keeps (hinv : Inv orphans stray cache)
    (hrecord : cache.sequences.get? sequence = some record)
    (hpending : record.pending = some pending) {id : PageId} {page : PageRecord R.Page}
    (hpage : cache.pages.get? id = some page) :
    (page.sealed = true → (page.mark cache.config.pageTokens (segmentsDone
        cache.config.pageTokens record.position committed record.heldPages) id).sealed = true) ∧
      (orphans = [] → page.validTokens ≤ (page.mark cache.config.pageTokens (segmentsDone
        cache.config.pageTokens record.position committed record.heldPages) id).validTokens) := by
  have hok := hinv.owned.sequence sequence record hrecord
  by_cases hmem : id ∈ (segmentsDone cache.config.pageTokens record.position committed
      record.heldPages).map AppendSegment.page
  · obtain ⟨-, found, hfound, -, hopen⟩ := written_open hinv hrecord hpending hmem
    obtain rfl : page = found := by simpa [hpage] using hfound
    refine ⟨fun hsealed => absurd hsealed (by simp [hopen]), fun hintact => ?_⟩
    -- The page stands among those the committed rows reach.
    unfold segmentsDone at hmem
    split_ifs at hmem with hzero
    · cases hmem
    unfold segmentsOf at hmem
    rw [map_page_segmentsFrom] at hmem
    obtain ⟨n, hn⟩ := List.getElem?_of_mem (List.mem_of_mem_drop hmem)
    have hlt : n < (record.position + committed) ⌈/⌉ cache.config.pageTokens := by
      have hlength := (List.getElem?_eq_some_iff.mp hn).1
      rw [List.length_take] at hlength
      omega
    rw [List.getElem?_take_of_lt hlt] at hn
    obtain ⟨found, hfound', hheld⟩ := hok.held n id hn
    obtain rfl : page = found := by simpa [hpage] using hfound'
    rw [PageRecord.mark_held hinv.config.pageTokens_pos hok.nodup hn hlt]
    split_ifs
    · exact le_rfl
    · simp only
      rw [(hheld.rows hintact).1]
      unfold validRows
      omega
  · rw [PageRecord.mark_of_not_mem page hmem]
    exact ⟨fun hsealed => hsealed, fun _ => le_rfl⟩

theorem Settled.keepsRows (hinv : Inv orphans stray cache)
    (h : Settled cache cache' sequence record pending committed event) :
    KeepsRows (orphans = []) cache cache' := by
  intro id page page' hpage hpage'
  rw [h.pages] at hpage'
  split_ifs at hpage'
  rw [hpage, Option.map_some] at hpage'
  rw [← Option.some.inj hpage']
  exact mark_keeps hinv h.live h.waiting hpage

theorem Torn.keepsRows {before after : List PageId} {last : PageId}
    (hinv : Inv orphans stray cache)
    (h : Torn cache cache' sequence record pending committed event before last after) :
    KeepsRows (orphans = []) cache cache' := by
  intro id page page' hpage hpage'
  rw [h.pages] at hpage'
  split_ifs at hpage'
  · rw [hpage, Option.map_some] at hpage'
    rw [← Option.some.inj hpage']
    exact mark_keeps hinv h.live h.waiting hpage
  · rw [hpage, Option.map_some] at hpage'
    rw [← Option.some.inj hpage']
    exact mark_keeps hinv h.live h.waiting hpage

end Marks

section Changes

variable {orphans : List PageId} {uses : SequenceId → R.Context → Prop}
variable {opens : R.Context → Prop} {cache cache' : SequenceCache R}

theorem Grows.keepsRows {intact : Prop} {shared fresh : List PageId}
    (h : Grows cache.pages cache'.pages shared fresh) : KeepsRows intact cache cache' := by
  refine .ofSame fun id page page' hpage hpage' => ?_
  obtain ⟨found, hfound, -, hvalid, hsealed⟩ := h.keeps id page hpage
  rw [hpage'] at hfound
  rw [Option.some.inj hfound]
  exact ⟨hsealed, hvalid⟩

theorem Change.keepsRows (h : Change orphans uses opens cache cache') :
    KeepsRows (orphans = []) cache cache' := by
  cases h with
  | quiet hquiet _ => exact .ofPages hquiet.pages
  | interned hinterns => exact .ofPages (by rw [hinterns.state])
  | published _ => exact .ofPages rfl
  | evicted _ hevicted =>
      refine .ofSame fun id page page' hpage hpage' => ?_
      rw [hevicted.pages, hpage] at hpage'
      split_ifs at hpage'
      rw [← Option.some.inj hpage']
      exact ⟨rfl, rfl⟩
  | reclaimed _ hreclaimed => exact .ofPages (by rw [hreclaimed.state]; rfl)
  | admitted _ hadmitted => exact Grows.keepsRows hadmitted.pages
  | reserved _ _ hreserved => exact Grows.keepsRows hreserved.pages
  | settled _ hinv _ hsettled => exact hsettled.keepsRows hinv
  | finished _ hfinished =>
      refine .ofSame fun id page page' hpage hpage' => ?_
      rw [hfinished.pages, hpage] at hpage'
      split_ifs at hpage'
      rw [← Option.some.inj hpage']
      exact ⟨rfl, rfl⟩

theorem Progress.keepsRows (h : Progress orphans uses opens cache cache') :
    KeepsRows (orphans = []) cache cache' := by
  induction h with
  | refl => exact .ofPages rfl
  | tail hprogress hchange ih =>
      exact ih.trans hchange.keepsRows (Progress.follows hprogress) hchange.follows

theorem Evolves.keepsRows {stray : List TokenBlockId} {strays : Prop}
    {result : Except (Failure R.Error) (Reply R)}
    (h : Evolves orphans stray strays uses opens cache result cache') :
    KeepsRows (orphans = []) cache cache' := by
  cases h with
  | progressed hprogress => exact hprogress.keepsRows
  | touched htouched => exact .ofPages (by rw [htouched.state])
  | retained hprogress hretained =>
      refine hprogress.keepsRows.trans ?_ hprogress.follows hretained.follows
      refine .ofSame fun id page page' hpage hpage' => ?_
      rw [hretained.pages.get?, hpage, Option.map_some] at hpage'
      rw [← Option.some.inj hpage']
      exact ⟨rfl, rfl⟩
  | torn hprogress hinv _ hinterrupted =>
      have hfollows := hinterrupted.follows
      obtain ⟨_, _, _, _, _, _, -, -, htorn, -⟩ := hinterrupted
      exact hprogress.keepsRows.trans (htorn.keepsRows hinv) hprogress.follows hfollows

end Changes

/-- Complete pages stay complete, whatever is called. -/
theorem Reaches.keepsSeals {cache cache' : SequenceCache R} (h : Reaches cache cache')
    (hlaw : R.Retires) (hinv : ∃ orphans stray, Inv orphans stray cache) :
    KeepsRows False cache cache' := by
  induction h with
  | start => exact .ofPages rfl
  | step operation hreach _ ih =>
      obtain ⟨orphans, stray, hinv'⟩ := Reaches.inv hreach hlaw hinv
      have hevolves := operation.evolves hlaw hinv'
      exact ih.trans (hevolves.keepsRows.mono False.elim) (Reaches.follows hreach hlaw hinv)
        hevolves.follows

/-- Valid rows stay valid, as long as no identity space is exhausted. -/
theorem ReachesIntact.keepsRows {cache cache' : SequenceCache R} (h : ReachesIntact cache cache')
    (hlaw : R.Retires) (hinv : ∃ stray, Inv [] stray cache) : KeepsRows True cache cache' := by
  induction h with
  | start => exact .ofPages rfl
  | step operation hreach _ ih =>
      obtain ⟨stray, hinv'⟩ := ReachesIntact.inv hreach hlaw hinv
      have hevolves := operation.evolves hlaw hinv'
      exact ih.trans (hevolves.keepsRows.mono fun _ => rfl)
        (Reaches.follows (ReachesIntact.reaches hreach) hlaw ⟨[], hinv⟩) hevolves.follows

/-! ## Who may write -/

/-- A live page with storage that one sequence holds and no entry retains. -/
def Private (cache : SequenceCache R) (id : PageId) (page : PageRecord R.Page) : Prop :=
  cache.pages.get? id = some page ∧ page.physical.isSome ∧ page.sealed = false ∧
    page.activeRefs = 1 ∧ page.prefixRefs = 0

/-- The segment addresses rows of a private page that are not valid yet. -/
def Writable (cache : SequenceCache R) (segment : AppendSegment) : Prop :=
  ∃ page, cache.Private segment.page page ∧ page.validTokens ≤ segment.pageOffset ∧
    segment.pageOffset + segment.rows ≤ cache.config.pageTokens

/-- A page whose rows are all valid. -/
def Complete (cache : SequenceCache R) (id : PageId) : Prop :=
  ∃ page, cache.pages.get? id = some page ∧ page.sealed = true ∧
    page.validTokens = cache.config.pageTokens

/-- Segments of the pending append of a sequence. -/
def pendingSegments (cache : SequenceCache R) (sequence : SequenceId) : List AppendSegment :=
  ((cache.sequences.get? sequence).bind SequenceRecord.pending).elim [] PendingAppend.segments

/-- Pending appends write where no one else reads or writes, and all pages but the last of
a sequence are complete. -/
structure Exclusive (cache : SequenceCache R) : Prop where
  writable : ∀ sequence, ∀ segment ∈ cache.pendingSegments sequence, cache.Writable segment
  separate : ∀ sequence, ((cache.pendingSegments sequence).map AppendSegment.page).Nodup
  disjoint : ∀ sequence sequence', sequence ≠ sequence' →
    ∀ segment ∈ cache.pendingSegments sequence, ∀ segment' ∈ cache.pendingSegments sequence',
      segment.page ≠ segment'.page
  complete : ∀ sequence record, cache.sequences.get? sequence = some record →
    ∀ n id, record.pages[n]? = some id → n + 1 < record.pages.length → cache.Complete id
  last : ∀ sequence record, cache.sequences.get? sequence = some record →
    ∀ id, record.pages.getLast? = some id → cache.Complete id ∨ ∃ page, cache.Private id page

section Holds

variable {stray : List TokenBlockId} {cache : SequenceCache R} {sequence : SequenceId}
variable {record : SequenceRecord R.AppendTransaction}

/-- A pending append and its place in the table of its sequence. -/
theorem mem_pendingSegments (hinv : Inv [] stray cache) {segment : AppendSegment}
    (h : segment ∈ cache.pendingSegments sequence) :
    ∃ record pending n, cache.sequences.get? sequence = some record ∧
      record.pending = some pending ∧ record.heldPages[n]? = some segment.page ∧
      record.position / cache.config.pageTokens ≤ n ∧
      segment = segmentAt cache.config.pageTokens record.position pending.rows n segment.page := by
  unfold pendingSegments at h
  cases hrecord : cache.sequences.get? sequence with
  | none => simp [hrecord] at h
  | some record =>
      cases hpending : record.pending with
      | none => simp [hrecord, hpending] at h
      | some pending =>
          have hok := (hinv.owned.sequence sequence record hrecord).pending pending hpending
          simp only [hrecord, Option.bind_some, hpending, Option.elim_some, hok.segments_eq] at h
          obtain ⟨index, id, hindex, rfl⟩ := mem_segmentsFrom h
          rw [List.getElem?_drop] at hindex
          exact ⟨record, pending, _, rfl, hpending, hindex, Nat.le_add_right _ _, rfl⟩

/-- The last page of a sequence belongs to it alone unless it is complete. -/
theorem private_of_open (hinv : Inv [] stray cache)
    (hrecord : cache.sequences.get? sequence = some record) {n : ℕ} {id : PageId}
    (hid : record.heldPages[n]? = some id)
    (hopen : record.position < (n + 1) * cache.config.pageTokens) :
    ∃ page, cache.Private id page ∧
      page.validTokens = validRows cache.config.pageTokens record.position n := by
  obtain ⟨page, hpage, hheld⟩ := (hinv.owned.sequence sequence record hrecord).held n id hid
  obtain ⟨hvalid, hsealed⟩ := hheld.rows rfl
  have hunsealed : page.sealed = false := by
    rw [← Bool.not_eq_true, hsealed]
    have hpos := hinv.config.pageTokens_pos
    rw [Nat.succ_mul] at hopen
    unfold validRows
    omega
  obtain ⟨hactive, hretained, -⟩ := hinv.owned.only_holder hrecord (List.mem_of_getElem? hid) hpage
    hunsealed
  exact ⟨page, ⟨hpage, hheld.storage, hunsealed, hactive, hretained⟩, hvalid⟩

theorem complete_of_le (hinv : Inv [] stray cache)
    (hrecord : cache.sequences.get? sequence = some record) {n : ℕ} {id : PageId}
    (hid : record.pages[n]? = some id)
    (hle : (n + 1) * cache.config.pageTokens ≤ record.position) : cache.Complete id := by
  have hheld : record.heldPages[n]? = some id :=
    (List.getElem?_append_left (List.getElem?_eq_some_iff.mp hid).1).trans hid
  obtain ⟨page, hpage, hok⟩ := (hinv.owned.sequence sequence record hrecord).held n id hheld
  exact ⟨page, hpage, hok.complete hle⟩

/-- Rows at the place of a segment are after the position of its sequence. -/
theorem open_of_segment {pageTokens position n : ℕ} (hpos : 0 < pageTokens)
    (hle : position / pageTokens ≤ n) : position < (n + 1) * pageTokens := by
  rw [Nat.mul_comm]
  exact (Nat.lt_mul_div_succ position hpos).trans_le
    (Nat.mul_le_mul_left _ (Nat.succ_le_succ hle))

theorem Exclusive.ofInv (hinv : Inv [] stray cache) : cache.Exclusive where
  writable := by
    intro sequence segment hmem
    obtain ⟨record, pending, n, hrecord, hpending, hid, hle, heq⟩ := mem_pendingSegments hinv hmem
    have hopen := open_of_segment hinv.config.pageTokens_pos hle
    obtain ⟨page, hprivate, hvalid⟩ := private_of_open hinv hrecord hid hopen
    refine ⟨page, hprivate, ?_, ?_⟩
    · rw [hvalid, heq]
      simp only [segmentAt, validRows]
      omega
    · rw [heq]
      rw [Nat.succ_mul] at hopen
      simp only [segmentAt, Nat.succ_mul]
      omega
  separate := by
    intro sequence
    unfold pendingSegments
    cases hrecord : cache.sequences.get? sequence with
    | none => exact List.nodup_nil
    | some record =>
        cases hpending : record.pending with
        | none => simp [hpending]
        | some pending =>
            have hsequence := hinv.owned.sequence sequence record hrecord
            simp only [Option.bind_some, hpending, Option.elim_some,
              (hsequence.pending pending hpending).segments_eq, segmentsOf, map_page_segmentsFrom]
            exact hsequence.nodup.sublist (List.drop_sublist _ _)
  disjoint := by
    intro sequence sequence' hne segment hmem segment' hmem' heq
    obtain ⟨record, _, n, hrecord, -, hid, hle, -⟩ := mem_pendingSegments hinv hmem
    obtain ⟨record', _, n', hrecord', -, hid', -⟩ := mem_pendingSegments hinv hmem'
    obtain ⟨page, ⟨hpage, -, hunsealed, -⟩, -⟩ := private_of_open hinv hrecord hid
      (open_of_segment hinv.config.pageTokens_pos hle)
    have hholder := (hinv.owned.only_holder hrecord (List.mem_of_getElem? hid) hpage hunsealed).2.2
    apply hholder sequence' record' hrecord' hne.symm
    rw [heq]
    exact List.mem_of_getElem? hid'
  complete := by
    intro sequence record hrecord n id hid hlt
    rw [(hinv.owned.sequence sequence record hrecord).length_pages,
      lt_ceilDiv_iff hinv.config.pageTokens_pos] at hlt
    exact complete_of_le hinv hrecord hid hlt.le
  last := by
    intro sequence record hrecord id hlast
    rw [List.getLast?_eq_getElem?] at hlast
    by_cases hle : (record.pages.length - 1 + 1) * cache.config.pageTokens ≤ record.position
    · exact Or.inl (complete_of_le hinv hrecord hlast hle)
    · have hheld : record.heldPages[record.pages.length - 1]? = some id :=
        (List.getElem?_append_left (List.getElem?_eq_some_iff.mp hlast).1).trans hlast
      obtain ⟨page, hprivate, -⟩ := private_of_open hinv hrecord hheld (Nat.not_le.mp hle)
      exact Or.inr ⟨page, hprivate⟩

end Holds

/-- In every state that is reached without exhausting an identity space, appends write
where no one else reads or writes.  From there on no live page loses a valid row, up to and
including the first call that exhausts an identity space, and none ever loses its seal. -/
theorem writers_exclusive (hlaw : R.Lawful) {config : CacheConfig}
    {start cache : SequenceCache R} (hnew : SequenceCache.new R config = .ok start)
    (hreach : ReachesIntact start cache) :
    cache.Exclusive ∧
      (∀ cache', ReachesIntact cache cache' → KeepsRows True cache cache' ∧
        ∀ operation : Operation R, KeepsRows True cache (operation.step cache')) ∧
      ∀ cache', Reaches cache cache' → KeepsRows False cache cache' := by
  obtain ⟨stray, hinv⟩ := ReachesIntact.inv hreach hlaw.toRetires ⟨[], inv_of_new hnew⟩
  refine ⟨.ofInv hinv, fun cache' hlater => ?_, fun cache' hlater => ?_⟩
  · have hrows := ReachesIntact.keepsRows hlater hlaw.toRetires ⟨stray, hinv⟩
    refine ⟨hrows, fun operation => ?_⟩
    obtain ⟨stray', hinv'⟩ := ReachesIntact.inv hlater hlaw.toRetires ⟨stray, hinv⟩
    have hevolves := operation.evolves hlaw.toRetires hinv'
    exact hrows.trans (hevolves.keepsRows.mono fun _ => rfl)
      (Reaches.follows (ReachesIntact.reaches hlater) hlaw.toRetires ⟨[], stray, hinv⟩)
        hevolves.follows
  · exact Reaches.keepsSeals hlater hlaw.toRetires ⟨[], stray, hinv⟩

/-- A reservation of three rows over two new pages. -/
theorem writers_exclusive_reserved :
    ((Reference.after [Reference.admission 7, .reserveAppend ⟨0, 0⟩ 3 7]).pendingSegments
      ⟨0, 0⟩).length = 2 ∧
    (Reference.after [Reference.admission 7, .reserveAppend ⟨0, 0⟩ 3 7]).Exclusive :=
  ⟨by decide, (writers_exclusive Reference.plain_lawful Reference.new_start
    (Reference.reachesIntact_after (by decide))).1⟩

end SequenceCache

end SeqCache
