import SeqCache.Run.Reachable

/-!
# The predicted tail of a branch

A branch from an unaligned position looks up the handle of the next page before it carries
its evictions out, and registers the copied tail after them.  A retired page puts its slot
on top of the free stack, so the prediction is right exactly when nothing is retired.
-/

namespace SeqCache

open Machine Program Std

variable {R : Runtime}

/-- A handle yet to be issued names no occupied slot. -/
theorem Arena.upcoming_slot_ne {α : Type*} {arena : Arena α} (hwf : arena.WF)
    (hroom : arena.free = [] → arena.slots.length < 2 ^ 32) {id : Handle} {value : α}
    (hlive : arena.get? id = some value) : (arena.upcoming 0).slot ≠ id.slot := by
  have hslot := Arena.get?_eq_some.mp hlive
  have hlt := Arena.slot_lt_of_get? hlive
  have hlength := hwf.length_le
  unfold upcoming
  cases hfree : arena.free with
  | nil =>
      have hnew : arena.slots.length % 2 ^ 32 = arena.slots.length := Nat.mod_eq_of_lt (hroom hfree)
      simp only [List.getElem?_nil, List.length_nil, Nat.sub_zero, Nat.add_zero, Handle.new, hnew]
      exact hlt.ne'
  | cons slot free =>
      obtain ⟨generation, hempty⟩ := (hwf.mem_free slot).mp (by simp [hfree])
      have hslot_lt := (List.getElem?_eq_some_iff.mp hempty).1
      have hmod : slot % 2 ^ 32 = slot := Nat.mod_eq_of_lt (hslot_lt.trans_le hlength)
      simp only [List.getElem?_cons_zero, Handle.new, hmod]
      rintro rfl
      rw [hempty] at hslot
      cases hslot

namespace SequenceCache

/-- The plan of a branch from `record`. -/
def branchPlan (cache : SequenceCache R) (record : SequenceRecord R.AppendTransaction)
    (request : AdmissionRequest) : CacheResult R (Option (List PrefixEntryId)) := do
  let extra ← cache.admissionBytes (cache.branchCommitment record request) request
  let limit ← cache.admissionLimit request.allowEmergency
  cache.planEvictions extra (cache.branchCommitment record request) limit none none none

/-- The handle predicted in `cache` is that of the last page of the new sequence. -/
def PredictsTail (cache cache' : SequenceCache R) (id : SequenceId) : Prop :=
  ∃ tail record, cache.peekPageId = .ok tail ∧ cache'.sequences.get? id = some record ∧
    record.pages.getLast? = some tail

section Predict

variable {cache cache' : SequenceCache R} {orphans : List PageId} {stray : List TokenBlockId}

/-- Evictions leave the next handle as it was exactly when they retire nothing. -/
theorem Evicted.upcoming_eq_iff (hinv : Inv orphans stray cache)
    (hslot : cache.preparePageSlot = .ok ()) {entries : List PrefixEntryId}
    {context : R.Context} {retired : List PageId} {physical : List R.Page} {deferred : ℕ}
    (h : Evicted cache cache' entries context retired physical deferred) :
    cache.pages.upcoming 0 = cache'.pages.upcoming 0 ↔ retired = [] := by
  have hroom : cache.pages.free = [] → cache.pages.slots.length < 2 ^ 32 := by
    intro hfree
    by_contra hfull
    have hnot : ¬ ¬ (cache.pages.free = [] ∧ cache.pages.slots.length > u32Max) := by
      unfold u32Max
      exact not_not.mpr ⟨hfree, by omega⟩
    rw [preparePageSlot, ensure_neg hnot] at hslot
    cases hslot
  rw [h.upcoming]
  cases hlast : retired.getLast? with
  | none => simp [List.getLast?_eq_none_iff.mp hlast]
  | some last =>
      have hmem : last ∈ retired := List.mem_of_getLast? hlast
      refine iff_of_false ?_ (List.ne_nil_of_mem hmem)
      obtain ⟨page, hpage, -⟩ := freedBy_live hinv last (h.retired_perm.subset hmem)
      have hlt := (Arena.slot_lt_of_get? hpage).trans_le hinv.owned.pages_wf.length_le
      intro heq
      apply Arena.upcoming_slot_ne hinv.owned.pages_wf hroom hpage
      rw [heq]
      exact Nat.mod_eq_of_lt hlt

theorem branch_predictsTail_iff (hlaw : R.Retires) (hinv : Inv orphans stray cache)
    {source id : SequenceId} {request : AdmissionRequest} {context : R.Context}
    (hrun : branch source request context cache = .ok (.admitted id) cache')
    {record : SequenceRecord R.AppendTransaction}
    (hrecord : cache.sequences.get? source = some record)
    (hunaligned : record.position % cache.config.pageTokens ≠ 0) :
    PredictsTail cache cache' id ↔ ∀ plan, cache.branchPlan record request = .ok (some plan) →
      cache.freedBy (cache.pagesOf plan) = [] := by
  have hspec := branch_spec hlaw hinv source request context
  rw [hrun] at hspec
  obtain ⟨-, ⟨hblocked, -⟩ | ⟨record', copied, history, reservedPages, extra, limit, fresh, id',
    plan, start, evicted, retired, physical, deferred, houtcome, hforked, hadmission⟩⟩ := hspec
  · cases hblocked
  cases houtcome
  obtain rfl : record' = record :=
    Option.some.inj (hforked.quoted.live.symm.trans hrecord)
  -- The plan is the one that the request determines.
  have hplan : cache.branchPlan record' request = .ok (some plan) := by
    unfold branchPlan
    rw [except_bind_ok hforked.quoted.bytes, except_bind_ok hforked.quoted.limit]
    exact hforked.planned
  have hsome : (cache.branchPartial record').isSome = true :=
    (branchTail_ok hinv hrecord).2.mpr hunaligned
  have hslot := hforked.page_slot hsome
  have hpeek := peekPageId_ok hinv.owned.pages_wf hslot
  -- The tail is the page that was issued after the evictions.
  have hfresh : fresh = [evicted.pages.upcoming 0] := by
    have hlength := hadmission.admitted.stored.length_eq
    rw [hforked.copies.tail.isSome_iff, if_pos hsome] at hlength
    rw [hadmission.admitted.issued, ← hlength]
    rfl
  have hnew : cache'.sequences.get? id = some (admittedRecord
      (cache.branchShared record' ++ fresh) record'.position reservedPages request) := by
    rw [hadmission.admitted.sequences id, if_pos rfl]
  have hstart := hforked.copies.state
  have hfreed : start.freedBy (start.pagesOf plan) = cache.freedBy (cache.pagesOf plan) := by
    rw [hstart]
    rfl
  have hupcoming : cache.pages.upcoming 0 = start.pages.upcoming 0 := by
    rw [hstart]
  have hstart_slot : start.preparePageSlot = .ok () := by
    rw [hstart]
    exact hslot
  have hiff := hadmission.carried_out.upcoming_eq_iff (hforked.copies.inv hinv) hstart_slot
  have hretired : retired = [] ↔ cache.freedBy (cache.pagesOf plan) = [] := by
    rw [← hfreed, ← List.length_eq_zero_iff, ← List.length_eq_zero_iff,
      hadmission.carried_out.retired_perm.length_eq]
  constructor
  · rintro ⟨tail, found, hpredicted, hfound, hlast⟩ plan' hplan'
    rw [hplan] at hplan'
    cases hplan'
    rw [hpeek] at hpredicted
    cases hpredicted
    rw [hnew] at hfound
    cases hfound
    rw [admittedRecord, hfresh, List.getLast?_concat, Option.some.injEq] at hlast
    rw [← hretired, ← hiff, ← hupcoming]
    exact hlast.symm
  · intro hnone
    refine ⟨cache.pages.upcoming 0, _, hpeek, hnew, ?_⟩
    rw [admittedRecord, hfresh, List.getLast?_concat, hupcoming,
      hiff.mpr (hretired.mpr (hnone plan hplan))]

end Predict

/-- In every reachable state, a branch from an unaligned position predicts the handle of its
tail exactly when the evictions that it plans free no page. -/
theorem branch_predicts_iff (hlaw : R.Lawful) {config : CacheConfig}
    {start cache cache' : SequenceCache R} (hnew : SequenceCache.new R config = .ok start)
    (hreach : Reaches start cache) {source id : SequenceId} {request : AdmissionRequest}
    {context : R.Context}
    (hrun : branch source request context cache = .ok (.admitted id) cache')
    {record : SequenceRecord R.AppendTransaction}
    (hrecord : cache.sequences.get? source = some record)
    (hunaligned : record.position % cache.config.pageTokens ≠ 0) :
    PredictsTail cache cache' id ↔ ∀ plan, cache.branchPlan record request = .ok (some plan) →
      cache.freedBy (cache.pagesOf plan) = [] := by
  obtain ⟨orphans, stray, hinv⟩ := Reaches.inv hreach hlaw.toRetires ⟨[], [], inv_of_new hnew⟩
  exact branch_predictsTail_iff hlaw.toRetires hinv hrun hrecord hunaligned

end SequenceCache

/-- A retained page of a live sequence, and a second sequence of three rows. -/
def Reference.sharedPage : List (Operation Reference.plain) :=
  [Reference.admission 7, .reserveAppend ⟨0, 0⟩ 2 7,
    .commitAppend ⟨⟨0, 0⟩, 0, 2, [⟨⟨0, 0⟩, 0, 0, 2⟩], 0⟩ 2 7, .retainPrefix ⟨0, 0⟩ [1, 1] 4 7,
    Reference.admission 8, .reserveAppend ⟨1, 0⟩ 3 8,
    .commitAppend ⟨⟨1, 0⟩, 0, 3, [⟨⟨1, 0⟩, 0, 0, 2⟩, ⟨⟨2, 0⟩, 0, 2, 1⟩], 1⟩ 3 8]

/-- The state after a branch of the second sequence that asks for fifty private bytes. -/
def Reference.branchedBeside : SequenceCache Reference.plain :=
  finalState (@SequenceCache.branch Reference.plain ⟨1, 0⟩ ⟨8, 50, 0, false⟩ 9
    (Reference.after Reference.sharedPage))

namespace SequenceCache

/-- The entry is evicted, but its page stays: the prediction is right. -/
theorem branch_predicts_iff_sharedPage :
    Reference.branchedBeside.prefixes.size = 0 ∧
      PredictsTail (Reference.after Reference.sharedPage) Reference.branchedBeside ⟨2, 0⟩ := by
  have hreach : Reaches Reference.start (Reference.after Reference.sharedPage) :=
    ReachesIntact.reaches (Reference.reachesIntact_after (by decide +kernel))
  have hrun := eq_ok_of_outcome (show outcome (@branch Reference.plain ⟨1, 0⟩ ⟨8, 50, 0, false⟩ 9
    (Reference.after Reference.sharedPage)) = .ok (.admitted ⟨2, 0⟩) by decide +kernel)
  obtain ⟨record, hrecord, hunaligned, hplan⟩ : ∃ record,
      (Reference.after Reference.sharedPage).sequences.get? ⟨1, 0⟩ = some record ∧
      record.position % (Reference.after Reference.sharedPage).config.pageTokens ≠ 0 ∧
      (Reference.after Reference.sharedPage).branchPlan record ⟨8, 50, 0, false⟩ =
        .ok (some [0]) :=
    ⟨⟨[⟨1, 0⟩, ⟨2, 0⟩], 3, 8, 2, 0, 0, none⟩, by decide +kernel⟩
  have hspared : (Reference.after Reference.sharedPage).freedBy
      ((Reference.after Reference.sharedPage).pagesOf [0]) = [] := by decide +kernel
  refine ⟨by decide +kernel, (branch_predicts_iff Reference.plain_lawful Reference.new_start hreach
    hrun hrecord hunaligned).mpr fun plan hsome => ?_⟩
  rw [hplan] at hsome
  cases hsome
  exact hspared

end SequenceCache

/-- The state after a branch of the second sequence that asks for more private bytes. -/
def Reference.branched : SequenceCache Reference.plain :=
  finalState (@SequenceCache.branch Reference.plain ⟨0, 1⟩ ⟨8, 53, 0, false⟩ 9
    (Reference.after Reference.unaligned))

namespace SequenceCache

/-- The eviction of the retained page puts its slot on top of the free stack. -/
theorem branch_mispredicts :
    ReachesIntact Reference.start (Reference.after Reference.unaligned) ∧
      @branch Reference.plain ⟨0, 1⟩ ⟨8, 53, 0, false⟩ 9
        (Reference.after Reference.unaligned) =
          .ok (.admitted ⟨1, 0⟩) Reference.branched ∧
      (∃ record, (Reference.after Reference.unaligned).sequences.get? ⟨0, 1⟩ = some record ∧
        record.position % (Reference.after Reference.unaligned).config.pageTokens ≠ 0) ∧
      ¬ PredictsTail (Reference.after Reference.unaligned) Reference.branched ⟨1, 0⟩ := by
  refine ⟨Reference.reachesIntact_after (by decide +kernel),
    eq_ok_of_outcome (by decide +kernel),
    ⟨⟨[⟨1, 0⟩, ⟨2, 0⟩], 3, 8, 2, 0, 0, none⟩, by decide +kernel⟩, ?_⟩
  rintro ⟨tail, record, hpeek, hrecord, hlast⟩
  have hpredicted : (Reference.after Reference.unaligned).peekPageId = .ok ⟨3, 0⟩ := by
    decide +kernel
  have htable : (Reference.branched.sequences.get? ⟨1, 0⟩).bind
      (fun record => record.pages.getLast?) = some ⟨0, 1⟩ := by decide +kernel
  rw [hrecord, Option.bind_some, hlast, Option.some.injEq] at htable
  rw [hpredicted, htable] at hpeek
  cases hpeek

end SequenceCache

end SeqCache
