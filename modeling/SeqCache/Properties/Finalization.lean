import SeqCache.Invariant.Likeness
import SeqCache.Run.Reachable

/-!
# Finalizations in any order

Committing and aborting pending appends of different sequences, one by one or in batches, in
whatever order, leads to the same contents.  `Settles` is the closed form: what becomes of a
sequence and of the pages it was writing depends on the choice made for it alone, and no two
sequences write the same page.
-/

namespace SeqCache

open Machine Program Std

variable {R : Runtime}

/-- A reservation and the number of its rows to commit.  An abort commits none. -/
abbrev Choice := AppendReservation × ℕ

/-- Pages that a pending append writes or has created. -/
def SequenceRecord.openPages {Transaction : Type} (pageTokens : ℕ)
    (record : SequenceRecord Transaction) : List PageId :=
  record.heldPages.drop (record.position / pageTokens)

namespace SequenceCache

variable {orphans : List PageId} {stray : List TokenBlockId}
variable {cache middle cache' : SequenceCache R}

/-- A page record after an append of its holder was finalized. -/
def settledPage (cache : SequenceCache R) (record : SequenceRecord R.AppendTransaction)
    (pending : PendingAppend R.AppendTransaction) (committed : ℕ) (id : PageId) :
    Option (PageRecord R.Page) :=
  if id ∈ releasedPages cache.config.pageTokens record pending committed then none
  else (cache.pages.get? id).map fun page => page.mark cache.config.pageTokens
    (segmentsDone cache.config.pageTokens record.position committed record.heldPages) id

/-- What finalizing pending appends does, in whatever order: the choices tell what becomes of
their sequences and pages, and all others are left alone. -/
structure Settles (cache cache' : SequenceCache R) (choices : List Choice) : Prop where
  state : cache' = { cache with
    backend := cache'.backend, pages := cache'.pages, sequences := cache'.sequences
    stats := cache'.stats, gauges := cache'.gauges }
  settled : ∀ choice ∈ choices, ∃ record pending, Matches cache choice.1 record pending ∧
    cache'.sequences.get? choice.1.sequence =
      some (record.settle cache.config.pageTokens pending choice.2) ∧
    ∀ id ∈ record.openPages cache.config.pageTokens,
      cache'.pages.get? id = cache.settledPage record pending choice.2 id
  sequences : ∀ id, (∀ choice ∈ choices, choice.1.sequence ≠ id) → ∃ change,
    cache'.sequences.get? id =
      (cache.sequences.get? id).map (SequenceRecord.mapTransaction change)
  pages : ∀ id, (∀ choice ∈ choices, ∀ record,
      cache.sequences.get? choice.1.sequence = some record →
      id ∉ record.openPages cache.config.pageTokens) →
    cache'.pages.get? id = cache.pages.get? id

/-! ## The pages of one append -/

section Pages

variable {sequence other : SequenceId} {record record' : SequenceRecord R.AppendTransaction}
variable {pending : PendingAppend R.AppendTransaction} {committed : ℕ} {id : PageId}

/-- No other sequence holds a page that an append is writing. -/
theorem openPages_disjoint (hinv : Inv orphans stray cache)
    (hrecord : cache.sequences.get? sequence = some record)
    (hpending : record.pending = some pending)
    (hrecord' : cache.sequences.get? other = some record') (hne : other ≠ sequence)
    (hmem : id ∈ record.openPages cache.config.pageTokens) :
    id ∉ record'.openPages cache.config.pageTokens := by
  obtain ⟨n, hn⟩ := List.getElem?_of_mem hmem
  rw [SequenceRecord.openPages, List.getElem?_drop] at hn
  have hopen : record.position <
      (record.position / cache.config.pageTokens + n + 1) * cache.config.pageTokens := by
    rw [Nat.mul_comm]
    refine (Nat.lt_mul_div_succ record.position hinv.config.pageTokens_pos).trans_le ?_
    exact Nat.mul_le_mul_left _ (by omega)
  obtain ⟨page, hpage, -, hunsealed⟩ := pending_open hinv hrecord hpending hn hopen
  obtain ⟨-, -, halone⟩ := hinv.owned.only_holder hrecord (List.mem_of_getElem? hn) hpage hunsealed
  exact fun hmem' => halone other record' hrecord' hne (List.mem_of_mem_drop hmem')

theorem released_subset_open (hok : SequenceOk orphans cache.config.pageTokens cache.pages record)
    (hpos : 0 < cache.config.pageTokens) (hpending : record.pending = some pending)
    (hmem : id ∈ releasedPages cache.config.pageTokens record pending committed) :
    id ∈ record.openPages cache.config.pageTokens := by
  have hle : record.position / cache.config.pageTokens ≤ record.pages.length := by
    rw [hok.length_pages]
    exact Nat.div_le_of_le_mul (by
      rw [Nat.mul_comm]
      exact (ceilDiv_le_iff hpos).mp le_rfl)
  rw [SequenceRecord.openPages, heldPages_of_pending_some hpending,
    List.drop_append_of_le_length hle]
  exact List.mem_append_right _ (List.mem_of_mem_drop hmem)

theorem written_subset_open
    (hmem : id ∈ (segmentsDone cache.config.pageTokens record.position committed
      record.heldPages).map AppendSegment.page) :
    id ∈ record.openPages cache.config.pageTokens := by
  unfold segmentsDone at hmem
  split_ifs at hmem
  · exact absurd hmem List.not_mem_nil
  · rw [segmentsOf, map_page_segmentsFrom, List.drop_take] at hmem
    exact List.mem_of_mem_take hmem

/-- Outside of the pages it was writing, a finalization changes no page. -/
theorem Settled.pages_eq {event : R.Event} (hinv : Inv orphans stray cache)
    (h : Settled cache cache' sequence record pending committed event)
    (hnot : id ∉ record.openPages cache.config.pageTokens) :
    cache'.pages.get? id = cache.pages.get? id := by
  have hok := hinv.owned.sequence sequence record h.live
  rw [h.pages, if_neg fun hmem => hnot
    (released_subset_open hok hinv.config.pageTokens_pos h.waiting hmem)]
  cases cache.pages.get? id with
  | none => rfl
  | some page =>
      exact congrArg some (page.mark_of_not_mem fun hmem => hnot (written_subset_open hmem))

end Pages

/-! ## One after the other -/

namespace Settles

variable {choices : List Choice}

theorem nil (cache : SequenceCache R) : Settles cache cache [] where
  state := rfl
  settled := fun _ hmem => absurd hmem List.not_mem_nil
  sequences := fun sequence _ => ⟨id, by
    cases cache.sequences.get? sequence with
    | none => rfl
    | some record => rw [Option.map_some, SequenceRecord.mapTransaction_id]⟩
  pages := fun _ _ => rfl

/-- What the backend has been asked before does not matter. -/
theorem ofBackend {history : R.History}
    (h : Settles { cache with backend := history } cache' choices) :
    Settles cache cache' choices where
  state := h.state
  settled := by
    intro choice hmem
    obtain ⟨record, pending, hmatches, hsettled⟩ := h.settled choice hmem
    exact ⟨record, pending, ⟨hmatches.live, hmatches.waiting, hmatches.startPosition,
      hmatches.rows, hmatches.segments, hmatches.nonce⟩, hsettled⟩
  sequences := h.sequences
  pages := h.pages

/-- The order in which the choices are listed does not matter. -/
theorem perm (h : Settles cache cache' choices) {other : List Choice}
    (hperm : choices.Perm other) : Settles cache cache' other where
  state := h.state
  settled := fun choice hmem => h.settled choice (hperm.mem_iff.mpr hmem)
  sequences := fun id hid => h.sequences id fun choice hmem => hid choice (hperm.mem_iff.mp hmem)
  pages := fun id hid => h.pages id fun choice hmem => hid choice (hperm.mem_iff.mp hmem)

/-- A reservation that no choice was made for yet still matches. -/
theorem matches_iff (h : Settles cache middle choices) {reservation : AppendReservation}
    (hnew : ∀ choice ∈ choices, choice.1.sequence ≠ reservation.sequence) :
    ∃ change, ∀ record' pending', Matches middle reservation record' pending' ↔
      ∃ record pending, Matches cache reservation record pending ∧
        record' = record.mapTransaction change ∧
        pending' = { pending with transaction := change pending.transaction } := by
  obtain ⟨change, hsequence⟩ := h.sequences reservation.sequence hnew
  refine ⟨change, fun record' pending' => ⟨?_, ?_⟩⟩
  · intro hmatches
    have hlive := hmatches.live
    rw [hsequence] at hlive
    obtain ⟨record, hrecord, rfl⟩ := Option.map_eq_some_iff.mp hlive
    obtain ⟨pending, hpending, rfl⟩ := Option.map_eq_some_iff.mp hmatches.waiting
    exact ⟨record, pending, ⟨hrecord, hpending, hmatches.startPosition, hmatches.rows,
      hmatches.segments, hmatches.nonce⟩, rfl, rfl⟩
  · rintro ⟨record, pending, hmatches, rfl, rfl⟩
    refine ⟨?_, ?_, hmatches.startPosition, hmatches.rows, hmatches.segments, hmatches.nonce⟩
    · rw [hsequence, hmatches.live, Option.map_some]
    · rw [SequenceRecord.mapTransaction, hmatches.waiting, Option.map_some]

/-- A finalization after others, of a sequence that they leave alone. -/
theorem snoc (hinv : Inv orphans stray cache) (h : Settles cache middle choices)
    (hmiddle : Inv orphans stray middle) {reservation : AppendReservation} {committed : ℕ}
    {context : R.Context}
    (hnew : ∀ choice ∈ choices, choice.1.sequence ≠ reservation.sequence)
    (hstep : Finalized middle reservation committed context cache') :
    Settles cache cache' (choices ++ [(reservation, committed)]) := by
  obtain ⟨record', pending', event, hmatches', -, hsettled⟩ := hstep
  obtain ⟨change, hiff⟩ := h.matches_iff hnew
  obtain ⟨record, pending, hmatches, rfl, rfl⟩ := (hiff record' pending').mp hmatches'
  have hconfig : middle.config = cache.config := by rw [h.state]
  have hopen : (record.mapTransaction change).openPages middle.config.pageTokens =
      record.openPages cache.config.pageTokens := by
    rw [SequenceRecord.openPages, SequenceRecord.mapTransaction_heldPages, hconfig]
    rfl
  -- Sequences and pages of the earlier choices are not those of the new one.
  have hfresh : ∀ id ∈ record.openPages cache.config.pageTokens, ∀ choice ∈ choices, ∀ found,
      cache.sequences.get? choice.1.sequence = some found →
      id ∉ found.openPages cache.config.pageTokens := by
    intro id hmem choice hchoice found hfound
    exact openPages_disjoint hinv hmatches.live hmatches.waiting hfound (hnew choice hchoice) hmem
  have hsame : ∀ id ∉ record.openPages cache.config.pageTokens,
      cache'.pages.get? id = middle.pages.get? id :=
    fun id hnot => hsettled.pages_eq hmiddle (by rwa [hopen])
  have hother : ∀ other, other ≠ reservation.sequence →
      cache'.sequences.get? other = middle.sequences.get? other := by
    intro other hne
    rw [hsettled.sequences, Arena.get?_set hsettled.live, if_neg hne]
  refine ⟨?_, ?_, ?_, ?_⟩
  · rw [hsettled.state, h.state]
    rfl
  · intro choice hmem
    obtain hmem | hmem := List.mem_append.mp hmem
    · obtain ⟨found, waiting, hfound, hsequence, hpages⟩ := h.settled choice hmem
      refine ⟨found, waiting, hfound, ?_, ?_⟩
      · rw [hother _ (hnew choice hmem), hsequence]
      · intro id hid
        rw [hsame id fun hmem' => hfresh id hmem' choice hmem found hfound.live hid]
        exact hpages id hid
    · obtain rfl := List.mem_singleton.mp hmem
      refine ⟨record, pending, hmatches, ?_, ?_⟩
      · rw [hsettled.sequences, Arena.get?_set hsettled.live, if_pos rfl, hconfig]
        rfl
      · intro id hid
        rw [hsettled.pages, h.pages id (hfresh id hid), hconfig,
          SequenceRecord.mapTransaction_heldPages]
        rfl
  · intro id hid
    have hold := h.sequences id fun choice hmem => hid choice (List.mem_append_left _ hmem)
    rwa [hother id fun heq => hid _ (List.mem_append_right _ List.mem_cons_self) heq.symm]
  · intro id hid
    rw [hsame id (hid _ (List.mem_append_right _ List.mem_cons_self) record hmatches.live)]
    exact h.pages id fun choice hmem => hid choice (List.mem_append_left _ hmem)

/-- A refusal of the backend in between changes nothing but a transaction. -/
theorem putBack (h : Settles cache middle choices) {sequence : SequenceId} {error : R.Error}
    (hnew : ∀ choice ∈ choices, choice.1.sequence ≠ sequence)
    (hrefused : PutBack middle cache' sequence error) : Settles cache cache' choices := by
  obtain ⟨-, ⟨record, transaction, hrecord, hstate⟩, -⟩ := hrefused
  have hsequences : ∀ id, cache'.sequences.get? id = if id = sequence then
      some (record.mapTransaction fun _ => transaction) else middle.sequences.get? id := by
    intro id
    rw [hstate]
    exact Arena.get?_set hrecord
  have hpages : cache'.pages = middle.pages := by rw [hstate]
  refine ⟨?_, ?_, ?_, ?_⟩
  · rw [hstate, h.state]
  · intro choice hmem
    obtain ⟨found, waiting, hfound, hsequence, hsettled⟩ := h.settled choice hmem
    refine ⟨found, waiting, hfound, ?_, ?_⟩
    · rw [hsequences, if_neg (hnew choice hmem), hsequence]
    · intro id hid
      rw [hpages]
      exact hsettled id hid
  · intro id hid
    obtain ⟨change, hchange⟩ := h.sequences id hid
    rw [hsequences]
    split_ifs with hself
    · subst hself
      rw [hrecord] at hchange
      obtain ⟨found, hfound, rfl⟩ := Option.map_eq_some_iff.mp hchange.symm
      exact ⟨(fun _ => transaction) ∘ change, by
        rw [hfound, Option.map_some, SequenceRecord.mapTransaction_comp]⟩
    · exact ⟨change, hchange⟩
  · intro id hid
    rw [hpages]
    exact h.pages id hid

/-- The choices determine the contents. -/
theorem alike (h : Settles cache middle choices) (h' : Settles cache cache' choices) :
    Alike middle cache' ∧ ∀ id, cache'.pages.get? id = middle.pages.get? id := by
  have hpages : ∀ id, cache'.pages.get? id = middle.pages.get? id := by
    intro id
    by_cases hid : ∀ choice ∈ choices, ∀ record,
        cache.sequences.get? choice.1.sequence = some record →
        id ∉ record.openPages cache.config.pageTokens
    · rw [h.pages id hid, h'.pages id hid]
    push Not at hid
    obtain ⟨choice, hmem, record, hrecord, hid⟩ := hid
    obtain ⟨found, waiting, hfound, -, hsettled⟩ := h.settled choice hmem
    obtain ⟨found', waiting', hfound', -, hsettled'⟩ := h'.settled choice hmem
    obtain rfl : record = found := Option.some.inj (hrecord.symm.trans hfound.live)
    obtain rfl : record = found' := Option.some.inj (hrecord.symm.trans hfound'.live)
    obtain rfl : waiting = waiting' :=
      Option.some.inj (hfound.waiting.symm.trans hfound'.waiting)
    rw [hsettled id hid, hsettled' id hid]
  have hsequences : ∀ id, (cache'.sequences.get? id).map SequenceRecord.shape =
      (middle.sequences.get? id).map SequenceRecord.shape := by
    intro id
    by_cases hid : ∀ choice ∈ choices, choice.1.sequence ≠ id
    · obtain ⟨change, hchange⟩ := h.sequences id hid
      obtain ⟨change', hchange'⟩ := h'.sequences id hid
      rw [hchange, hchange', Option.map_map, Option.map_map]
      congr 1
      funext record
      simp only [Function.comp_apply, SequenceRecord.shape_mapTransaction]
    push Not at hid
    obtain ⟨choice, hmem, rfl⟩ := hid
    obtain ⟨found, waiting, hfound, hsettled, -⟩ := h.settled choice hmem
    obtain ⟨found', waiting', hfound', hsettled', -⟩ := h'.settled choice hmem
    obtain rfl : found = found' := Option.some.inj (hfound.live.symm.trans hfound'.live)
    obtain rfl : waiting = waiting' :=
      Option.some.inj (hfound.waiting.symm.trans hfound'.waiting)
    rw [hsettled, hsettled']
  refine ⟨⟨?_, ?_, ?_, hsequences, fun id => by rw [hpages id], ?_, ?_, ?_⟩, hpages⟩
  all_goals rw [h.state, h'.state]

end Settles

/-! ## Calls that finalize -/

/-- The choice can be made: the reservation is pending and covers the rows. -/
def Eligible (cache : SequenceCache R) (choice : Choice) : Prop :=
  (∃ record pending, Matches cache choice.1 record pending) ∧ choice.2 ≤ choice.1.rows

/-- How an eligible finalization ends: it takes place, the backend refuses it, or a page that
it releases is at its last generation. -/
def Concludes (orphans : List PageId) (stray : List TokenBlockId) (cache : SequenceCache R)
    (choice : Choice) (result : EStateM.Result (Failure R.Error) (SequenceCache R) Unit) : Prop :=
  Ends result
    (fun _ cache' => Inv orphans stray cache' ∧
      ∃ context, Finalized cache choice.1 choice.2 context cache')
    (fun failure cache' =>
      (∃ error, failure = .error (.backend error) ∧
        PutBack cache cache' choice.1.sequence error) ∨
      failure = .error (.idExhausted "page generation"))

theorem Concludes.ofEnds {choice : Choice} {valid : Prop} {context : R.Context}
    {result : EStateM.Result (Failure R.Error) (SequenceCache R) Unit}
    (h : Ends result
      (fun _ cache' => Inv orphans stray cache' ∧
        Finalized cache choice.1 choice.2 context cache')
      (FinalizeFails orphans stray cache choice.1 valid choice.2 context))
    (heligible : Eligible cache choice) (hvalid : valid) :
    Concludes orphans stray cache choice result := by
  apply Ends.mono h
  · rintro value cache' ⟨hinv', hfinalized⟩
    exact ⟨hinv', context, hfinalized⟩
  · rintro failure cache' (⟨⟨error, herror, -⟩ | ⟨hinvalid, -⟩, -⟩ | hrefused | ⟨hexhausted, -⟩)
    · have hok := validateReservation_isOk.mpr heligible.1
      rw [herror] at hok
      cases hok
    · exact absurd hvalid hinvalid
    · exact Or.inl hrefused
    · exact Or.inr hexhausted

theorem commitItem_concludes (hinv : Inv orphans stray cache)
    (item : (AppendReservation × ℕ) × R.Context) (heligible : Eligible cache item.1)
    (hpositive : item.1.2 ≠ 0) :
    Concludes orphans stray cache item.1 (commitItem item cache) :=
  Concludes.ofEnds (commitAppend_spec hinv item.1.1 item.1.2 item.2) heligible
    ⟨hpositive, heligible.2⟩

theorem abortItem_concludes (hinv : Inv orphans stray cache)
    (item : AppendReservation × R.Context) (heligible : Eligible cache (item.1, 0)) :
    Concludes orphans stray cache (item.1, 0) (abortItem item cache) :=
  Concludes.ofEnds (abortAppend_spec hinv item.1 item.2) heligible trivial

section Loops

variable {ι : Type} {call : ι → CacheM R Unit} {choice : ι → Choice} {done : List Choice}
variable {items : List ι}

theorem Settles.eligible (h : Settles cache middle done) {chosen : Choice}
    (hnew : ∀ other ∈ done, other.1.sequence ≠ chosen.1.sequence)
    (heligible : Eligible cache chosen) : Eligible middle chosen := by
  obtain ⟨⟨record, pending, hmatches⟩, hle⟩ := heligible
  obtain ⟨change, hiff⟩ := h.matches_iff hnew
  exact ⟨⟨_, _, (hiff _ _).mpr ⟨record, pending, hmatches, rfl, rfl⟩⟩, hle⟩

/-- No choice is made twice for a sequence. -/
def Distinct (choices : List Choice) : Prop :=
  (choices.map fun choice => choice.1.sequence).Nodup

theorem Distinct.fresh_of_mem {chosen : Choice} {later : List Choice}
    (h : Distinct (done ++ later)) (hmem : chosen ∈ later) :
    ∀ other ∈ done, other.1.sequence ≠ chosen.1.sequence := by
  intro other hother
  rw [Distinct, List.map_append] at h
  exact (List.nodup_append.mp h).2.2 _ (List.mem_map_of_mem hother) _ (List.mem_map_of_mem hmem)

theorem Distinct.fresh {chosen : Choice} {later : List Choice}
    (h : Distinct (done ++ chosen :: later)) :
    ∀ other ∈ done, other.1.sequence ≠ chosen.1.sequence :=
  h.fresh_of_mem List.mem_cons_self

theorem EachOk.settles {values : List Unit} (h : EachOk call middle items values cache')
    (hinv : Inv orphans stray cache) (hmiddle : Inv orphans stray middle)
    (hsettles : Settles cache middle done)
    (hdistinct : Distinct (done ++ items.map choice))
    (heligible : ∀ item ∈ items, Eligible cache (choice item))
    (hcall : ∀ item ∈ items, ∀ state, Inv orphans stray state → Eligible state (choice item) →
      Concludes orphans stray state (choice item) (call item state)) :
    Inv orphans stray cache' ∧ Settles cache cache' (done ++ items.map choice) := by
  induction h generalizing done with
  | nil => exact ⟨hmiddle, by rwa [List.map_nil, List.append_nil]⟩
  | @cons state next final item rest value values hrun _ ih =>
      rw [List.map_cons] at hdistinct
      have hfresh := hdistinct.fresh
      have hends := hcall item List.mem_cons_self state hmiddle
        (hsettles.eligible hfresh (heligible item List.mem_cons_self))
      rw [hrun] at hends
      obtain ⟨hnext, context, hfinalized⟩ := hends
      have hlonger := hsettles.snoc hinv hmiddle hfresh hfinalized
      rw [List.append_cons] at hdistinct
      rw [List.map_cons, List.append_cons]
      exact ih hnext hlonger hdistinct
        (fun item hmem => heligible item (List.mem_cons_of_mem _ hmem))
        fun item hmem => hcall item (List.mem_cons_of_mem _ hmem)

/-- How a batch of eligible finalizations ends: all of them take place, or it stops where the
backend refuses one or a page is at its last generation. -/
theorem Finalizes.settles {batch : List AppendReservation}
    {result : EStateM.Result (Failure R.Error) (SequenceCache R) (BatchResult R Unit)}
    (h : Finalizes call batch items middle result)
    (hinv : Inv orphans stray cache) (hmiddle : Inv orphans stray middle)
    (hsettles : Settles cache middle done)
    (hdistinct : Distinct (done ++ items.map choice))
    (heligible : ∀ item ∈ items, Eligible cache (choice item))
    (hcall : ∀ item ∈ items, ∀ state, Inv orphans stray state → Eligible state (choice item) →
      Concludes orphans stray state (choice item) (call item state)) :
    (∃ values cache', EachOk call middle items values cache' ∧ result = .ok (.ok ()) cache' ∧
        Inv orphans stray cache' ∧ Settles cache cache' (done ++ items.map choice)) ∨
      ∃ before item after values stop cache' error, items = before ++ item :: after ∧
        Stopped call middle before item values stop (.error error) cache' ∧
        Inv orphans stray stop ∧ Settles cache stop (done ++ before.map choice) ∧
        ((∃ refusal, error = .backend refusal ∧
            PutBack stop cache' (choice item).1.sequence refusal) ∨
          error = .idExhausted "page generation") ∧
        result = .ok (.error ⟨error, cache'.pendingAppendBatch [] batch, some before.length⟩)
          cache' := by
  obtain ⟨values, cache', heach, hresult⟩ |
    ⟨before, item, after, values, stop, failure, cache', rfl, hstopped, hresult⟩ := h
  · obtain ⟨hinv', hsettles'⟩ :=
      EachOk.settles heach hinv hmiddle hsettles hdistinct heligible hcall
    exact Or.inl ⟨values, cache', heach, hresult, hinv', hsettles'⟩
  rw [List.map_append, List.map_cons, ← List.append_assoc] at hdistinct
  have hmem : ∀ other ∈ before, other ∈ before ++ item :: after :=
    fun other hother => List.mem_append_left _ hother
  have hitem : item ∈ before ++ item :: after := List.mem_append_right _ List.mem_cons_self
  have hbefore : Distinct (done ++ before.map choice) := by
    rw [Distinct, List.map_append] at hdistinct
    exact hdistinct.of_append_left
  obtain ⟨hstop, hsettles'⟩ := EachOk.settles hstopped.succeeded hinv hmiddle hsettles hbefore
    (fun other hother => heligible other (hmem other hother))
    fun other hother => hcall other (hmem other hother)
  have hends := hcall item hitem stop hstop
    (hsettles'.eligible hdistinct.fresh (heligible item hitem))
  rw [hstopped.failed] at hends
  obtain ⟨refusal, rfl, hrefused⟩ | rfl := hends
  · obtain ⟨error, herror, hresult⟩ | ⟨message, hpanic, -⟩ := hresult
    · cases herror
      exact Or.inr ⟨before, item, after, values, stop, cache', _, rfl, hstopped, hstop, hsettles',
        Or.inl ⟨refusal, rfl, hrefused⟩, hresult⟩
    · cases hpanic
  · obtain ⟨error, herror, hresult⟩ | ⟨message, hpanic, -⟩ := hresult
    · cases herror
      exact Or.inr ⟨before, item, after, values, stop, cache', _, rfl, hstopped, hstop, hsettles',
        Or.inr rfl, hresult⟩
    · cases hpanic

end Loops

end SequenceCache

/-! ## Performing all choices -/

open SequenceCache

/-- The backend refuses no finalization. -/
def PageBackend.AcceptsAppends (B : PageBackend) : Prop :=
  (∀ history context transaction commit,
      (B.commitAppend history context transaction commit).1 = .ok ()) ∧
    ∀ history context transaction restored released position,
      (B.abortAppend history context transaction restored released position).1 = .ok ()

theorem SequenceCache.Declines.false {history : R.History} {error : R.Error}
    (h : Declines history error) (haccepts : R.AcceptsAppends) : False := by
  obtain ⟨context, transaction, commit, hanswer⟩ |
    ⟨context, transaction, restored, released, position, hanswer⟩ := h
  · rw [haccepts.1] at hanswer
    cases hanswer
  · rw [haccepts.2] at hanswer
    cases hanswer

namespace Operation

/-- Choices that a finalization carries out, one by one or as a batch. -/
def choices : Operation R → List Choice
  | .commitAppend reservation rows _ => [(reservation, rows)]
  | .abortAppend reservation _ => [(reservation, 0)]
  | .commitAppendBatch reservations rows _ => reservations.zip rows
  | .abortAppendBatch reservations _ => reservations.map (·, 0)
  | _ => []

/-- The call is a finalization whose arguments fit together. -/
def Finalizing : Operation R → Prop
  | .commitAppend _ rows _ => rows ≠ 0
  | .abortAppend _ _ => True
  | .commitAppendBatch reservations rows contexts => reservations.length = rows.length ∧
      reservations.length = contexts.length ∧ ∀ count ∈ rows, count ≠ 0
  | .abortAppendBatch reservations contexts => reservations.length = contexts.length
  | _ => False

/-- The call reports no error. -/
def Succeeds (operation : Operation R) (cache : SequenceCache R) : Prop :=
  ∃ reply, operation.result cache = .ok reply ∧ reply.batchError = none

end Operation

namespace SequenceCache

/-- Items of a batch commit, by the choices they carry out. -/
theorem map_commitItems {reservations : List AppendReservation} {rows : List ℕ}
    {contexts : List R.Context} (hrows : reservations.length = rows.length)
    (hcontexts : reservations.length = contexts.length) :
    ((reservations.zip rows).zip contexts).map Prod.fst = reservations.zip rows := by
  apply List.map_fst_zip
  rw [List.length_zip]
  omega

/-- Items of a batch abort, by the choices they carry out. -/
theorem map_abortItems {reservations : List AppendReservation} {contexts : List R.Context}
    (hcontexts : reservations.length = contexts.length) :
    (reservations.zip contexts).map (fun item => ((item.1, 0) : Choice)) =
      reservations.map (·, 0) := by
  conv_rhs => rw [← List.map_fst_zip hcontexts.le, List.map_map]
  rfl

section Perform

variable {orphans : List PageId} {stray : List TokenBlockId}
variable {cache middle cache' : SequenceCache R} {done : List Choice} {operation : Operation R}

theorem concludes_settles {program : CacheM R Unit} {chosen : Choice}
    (haccepts : R.AcceptsAppends) (hrun : operation.run = (fun _ => Reply.done) <$> program)
    (hinv : Inv orphans stray cache) (hmiddle : Inv orphans stray middle)
    (hsettles : Settles cache middle done) (hdistinct : Distinct (done ++ [chosen]))
    (hconcludes : Concludes orphans stray middle chosen (program middle))
    (hintact : ¬ Exhausted (operation.result middle)) :
    operation.Succeeds middle ∧ Inv orphans stray (operation.step middle) ∧
      Settles cache (operation.step middle) (done ++ [chosen]) := by
  rw [Operation.result, hrun] at hintact
  rw [Operation.Succeeds, Operation.step, Operation.result, hrun]
  cases hprogram : program middle with
  | ok value cache' =>
      rw [hprogram] at hconcludes
      obtain ⟨hinv', context, hfinalized⟩ := hconcludes
      rw [map_ok _ hprogram]
      exact ⟨⟨.done, rfl, rfl⟩, hinv', hsettles.snoc hinv hmiddle hdistinct.fresh hfinalized⟩
  | error failure cache' =>
      rw [hprogram] at hconcludes
      rw [map_error _ hprogram] at hintact
      obtain ⟨error, -, hrefused⟩ | rfl := hconcludes
      · exact (hrefused.declined.false haccepts).elim
      · exact absurd trivial hintact

theorem finalizes_settles {ι : Type} {call : ι → CacheM R Unit} (choice : ι → Choice)
    {items : List ι} {program : CacheM R (BatchResult R Unit)} {batch : List AppendReservation}
    (haccepts : R.AcceptsAppends) (hrun : operation.run = Reply.finalized <$> program)
    (h : Finalizes call batch items middle (program middle))
    (hinv : Inv orphans stray cache) (hmiddle : Inv orphans stray middle)
    (hsettles : Settles cache middle done) (hdistinct : Distinct (done ++ items.map choice))
    (heligible : ∀ item ∈ items, Eligible cache (choice item))
    (hcall : ∀ item ∈ items, ∀ state, Inv orphans stray state → Eligible state (choice item) →
      Concludes orphans stray state (choice item) (call item state))
    (hintact : ¬ Exhausted (operation.result middle)) :
    operation.Succeeds middle ∧ Inv orphans stray (operation.step middle) ∧
      Settles cache (operation.step middle) (done ++ items.map choice) := by
  rw [Operation.result, hrun] at hintact
  rw [Operation.Succeeds, Operation.step, Operation.result, hrun]
  obtain ⟨values, cache', -, hresult, hinv', hsettles'⟩ |
    ⟨before, item, after, values, stop, cache', error, -, -, -, -, hcause, hresult⟩ :=
    h.settles hinv hmiddle hsettles hdistinct heligible hcall
  · rw [map_ok _ hresult]
    exact ⟨⟨_, rfl, rfl⟩, hinv', hsettles'⟩
  · rw [map_ok _ hresult] at hintact
    obtain ⟨refusal, -, hrefused⟩ | rfl := hcause
    · exact (hrefused.declined.false haccepts).elim
    · exact absurd ⟨_, rfl⟩ hintact

/-- A call that carries out eligible choices, after others. -/
theorem finalizing_settles (haccepts : R.AcceptsAppends) (hop : operation.Finalizing)
    (hinv : Inv orphans stray cache) (hmiddle : Inv orphans stray middle)
    (hsettles : Settles cache middle done) (hdistinct : Distinct (done ++ operation.choices))
    (heligible : ∀ choice ∈ operation.choices, Eligible cache choice)
    (hintact : ¬ Exhausted (operation.result middle)) :
    operation.Succeeds middle ∧ Inv orphans stray (operation.step middle) ∧
      Settles cache (operation.step middle) (done ++ operation.choices) := by
  have hready : ∀ choice ∈ operation.choices, Eligible middle choice := fun choice hmem =>
    hsettles.eligible (hdistinct.fresh_of_mem hmem) (heligible choice hmem)
  cases operation with
  | commitAppend reservation rows context =>
      exact concludes_settles haccepts rfl hinv hmiddle hsettles hdistinct
        (commitItem_concludes hmiddle ((reservation, rows), context)
          (hready _ List.mem_cons_self) hop) hintact
  | abortAppend reservation context =>
      exact concludes_settles haccepts rfl hinv hmiddle hsettles hdistinct
        (abortItem_concludes hmiddle (reservation, context) (hready _ List.mem_cons_self)) hintact
  | commitAppendBatch reservations rows contexts =>
      obtain ⟨hrows, hcontexts, hpositive⟩ := hop
      have hitems := map_commitItems hrows hcontexts
      have hcounts : ∀ item ∈ reservations.zip rows, item.2 ≠ 0 :=
        fun item hmem => hpositive _ (List.of_mem_zip hmem).2
      have hloop : Finalizes commitItem reservations ((reservations.zip rows).zip contexts) middle
          (SequenceCache.commitAppendBatch reservations rows contexts middle) :=
        commitAppendBatch_finalizes hrows hcontexts fun item hmem =>
          ⟨validateReservation_isOk.mpr (hready item hmem).1, hcounts item hmem,
            (hready item hmem).2⟩
      have hends := finalizes_settles Prod.fst haccepts rfl hloop hinv hmiddle hsettles
        (by rwa [hitems])
        (fun item hmem => heligible item.1 (List.of_mem_zip hmem).1)
        (fun item hmem state hstate h => commitItem_concludes hstate item h
          (hcounts item.1 (List.of_mem_zip hmem).1)) hintact
      rwa [hitems] at hends
  | abortAppendBatch reservations contexts =>
      have hitems := map_abortItems hop
      have hloop : Finalizes abortItem reservations (reservations.zip contexts) middle
          (SequenceCache.abortAppendBatch reservations contexts middle) :=
        abortAppendBatch_finalizes hop fun item hmem =>
          validateReservation_isOk.mpr (hready (item, 0) (List.mem_map_of_mem hmem)).1
      have hends := finalizes_settles (fun item => (item.1, 0)) haccepts rfl hloop hinv hmiddle
        hsettles (by rwa [hitems])
        (fun item hmem => heligible (item.1, 0) (List.mem_map_of_mem (List.of_mem_zip hmem).1))
        (fun item _ state hstate h => abortItem_concludes hstate item h) hintact
      rwa [hitems] at hends
  | _ => exact hop.elim

/-- Calls that report no exhausted identity space. -/
abbrev Intact (operations : List (Operation R)) (cache : SequenceCache R) : Prop :=
  AllAllowed Operation.step (fun cache operation => ¬ Exhausted (operation.result cache))
    operations cache

/-- Calls none of which reports an error. -/
abbrev AllSucceed (operations : List (Operation R)) (cache : SequenceCache R) : Prop :=
  AllAllowed Operation.step (fun cache operation => operation.Succeeds cache) operations cache

theorem run_settles (haccepts : R.AcceptsAppends) (operations : List (Operation R))
    (hops : ∀ operation ∈ operations, operation.Finalizing)
    (hinv : Inv orphans stray cache) (hmiddle : Inv orphans stray middle)
    (hsettles : Settles cache middle done)
    (hdistinct : Distinct (done ++ operations.flatMap Operation.choices))
    (heligible : ∀ choice ∈ operations.flatMap Operation.choices, Eligible cache choice)
    (hintact : Intact operations middle) :
    AllSucceed operations middle ∧ Inv orphans stray (runAll Operation.step operations middle) ∧
      Settles cache (runAll Operation.step operations middle)
        (done ++ operations.flatMap Operation.choices) := by
  induction operations generalizing middle done with
  | nil => exact ⟨trivial, hmiddle, by rwa [List.flatMap_nil, List.append_nil]⟩
  | cons operation rest ih =>
      rw [List.flatMap_cons, ← List.append_assoc] at hdistinct ⊢
      rw [List.flatMap_cons] at heligible
      have hfirst : Distinct (done ++ operation.choices) := by
        rw [Distinct, List.map_append] at hdistinct
        exact hdistinct.of_append_left
      obtain ⟨hsucceeds, hnext, hsettles'⟩ := finalizing_settles haccepts
        (hops operation List.mem_cons_self) hinv hmiddle hsettles hfirst
        (fun choice hmem => heligible choice (List.mem_append_left _ hmem)) hintact.1
      obtain ⟨hrest, hfinal⟩ := ih (fun other hmem => hops other (List.mem_cons_of_mem _ hmem))
        hnext hsettles' hdistinct
        (fun choice hmem => heligible choice (List.mem_append_right _ hmem)) hintact.2
      exact ⟨⟨hsucceeds, hrest⟩, hfinal⟩

end Perform

/-- The calls carry out exactly the choices, in any order and any grouping into batches. -/
structure Performs (operations : List (Operation R)) (choices : List Choice) : Prop where
  finalizing : ∀ operation ∈ operations, operation.Finalizing
  choices : (operations.flatMap Operation.choices).Perm choices

/-- The same tables, positions and reserved pages for every sequence, the same records under
the same page handles, and the same statistics. -/
structure SameTables (cache cache' : SequenceCache R) : Prop where
  sequences : ∀ id, (cache'.sequences.get? id).map SequenceRecord.shape =
    (cache.sequences.get? id).map SequenceRecord.shape
  pages : ∀ id, cache'.pages.get? id = cache.pages.get? id
  stats : cache'.stats = cache.stats

theorem Performs.settles {orphans : List PageId} {stray : List TokenBlockId}
    {cache : SequenceCache R} {operations : List (Operation R)} {choices : List Choice}
    (h : Performs operations choices) (haccepts : R.AcceptsAppends)
    (hinv : Inv orphans stray cache) (hdistinct : Distinct choices)
    (heligible : ∀ choice ∈ choices, Eligible cache choice) (hintact : Intact operations cache) :
    AllSucceed operations cache ∧ Inv orphans stray (runAll Operation.step operations cache) ∧
      Settles cache (runAll Operation.step operations cache) choices := by
  have hperm : Distinct ([] ++ operations.flatMap Operation.choices) :=
    (h.choices.map fun choice : Choice => choice.1.sequence).nodup_iff.mpr hdistinct
  obtain ⟨hsucceed, hfinal, hsettles⟩ := run_settles haccepts operations h.finalizing hinv hinv
    (.nil cache) hperm (fun choice hmem => heligible choice (h.choices.mem_iff.mp hmem)) hintact
  exact ⟨hsucceed, hfinal, hsettles.perm h.choices⟩

/-- In every state reached without exhausting an identity space, finalizing pending appends
of different sequences over a backend that accepts them succeeds and leads to the same
contents, in whatever order and whether singly or in batches, as long as no page to be
released is at its last generation. -/
theorem finalizations_anyOrder (hlaw : R.Lawful) (hhonest : R.ImmediateHonest)
    (haccepts : R.AcceptsAppends) {config : CacheConfig} {start cache : SequenceCache R}
    (hnew : SequenceCache.new R config = .ok start) (hreach : ReachesIntact start cache)
    {choices : List Choice} (hdistinct : Distinct choices)
    (heligible : ∀ choice ∈ choices, Eligible cache choice)
    {operations operations' : List (Operation R)} (hperforms : Performs operations choices)
    (hperforms' : Performs operations' choices) (hintact : Intact operations cache)
    (hintact' : Intact operations' cache) :
    AllSucceed operations cache ∧ AllSucceed operations' cache ∧
      SameTables (runAll Operation.step operations cache)
        (runAll Operation.step operations' cache) := by
  have hinv := (hreach.sound hlaw.toRetires hhonest (sound_of_new hnew)).inv
  obtain ⟨hsucceed, hfinal, hsettles⟩ :=
    hperforms.settles haccepts hinv hdistinct heligible hintact
  obtain ⟨hsucceed', hfinal', hsettles'⟩ :=
    hperforms'.settles haccepts hinv hdistinct heligible hintact'
  obtain ⟨halike, hpages⟩ := hsettles.alike hsettles'
  exact ⟨hsucceed, hsucceed', halike.sequences, hpages, halike.stats_eq hfinal hfinal'⟩

/-- Two sequences with a pending append each. -/
def twoPending : List (Operation Reference.plain) :=
  [Reference.admission 7, Reference.admission 8,
    .reserveAppendBatch [⟨⟨0, 0⟩, 3⟩, ⟨⟨1, 0⟩, 2⟩] [7, 8]]

def longAppend : AppendReservation :=
  ⟨⟨0, 0⟩, 0, 3, [⟨⟨0, 0⟩, 0, 0, 2⟩, ⟨⟨1, 0⟩, 0, 2, 1⟩], 0⟩

def shortAppend : AppendReservation := ⟨⟨1, 0⟩, 0, 2, [⟨⟨2, 0⟩, 0, 0, 2⟩], 1⟩

/-- Committing one row of the first append before aborting the second, or after it and as a
batch. -/
theorem finalizations_anyOrder_twoPending :
    SameTables
      (runAll Operation.step [.commitAppend longAppend 1 (7 : ℕ), .abortAppend shortAppend (8 : ℕ)]
        (Reference.after twoPending))
      (runAll Operation.step [.abortAppend shortAppend (8 : ℕ),
        .commitAppendBatch [longAppend] [1] [(7 : ℕ)]] (Reference.after twoPending)) := by
  have hreach : ReachesIntact Reference.start (Reference.after twoPending) :=
    Reference.reachesIntact_after (by decide +kernel)
  have hvalid : ((Reference.after twoPending).validateReservation longAppend).isOk = true ∧
      ((Reference.after twoPending).validateReservation shortAppend).isOk = true := by
    decide +kernel
  have hintact : Intact [.commitAppend longAppend 1 (7 : ℕ), .abortAppend shortAppend (8 : ℕ)]
      (Reference.after twoPending) := by decide +kernel
  have hintact' : Intact [.abortAppend shortAppend (8 : ℕ),
      .commitAppendBatch [longAppend] [1] [(7 : ℕ)]] (Reference.after twoPending) := by
    decide +kernel
  generalize Reference.after twoPending = cache at *
  have heligible : ∀ choice ∈ [(longAppend, 1), (shortAppend, 0)], Eligible cache choice := by
    intro choice hmem
    obtain rfl | hmem := List.mem_cons.mp hmem
    · exact ⟨validateReservation_isOk.mp hvalid.1, by decide⟩
    · obtain rfl := List.mem_singleton.mp hmem
      exact ⟨validateReservation_isOk.mp hvalid.2, by decide⟩
  refine (finalizations_anyOrder Reference.plain_lawful Reference.plain_immediateHonest
    ⟨fun _ _ _ _ => rfl, fun _ _ _ _ _ _ => rfl⟩ Reference.new_start hreach ?_
    heligible ⟨?_, ?_⟩ ⟨?_, ?_⟩ hintact hintact').2.2
  · show ([⟨0, 0⟩, ⟨1, 0⟩] : List SequenceId).Nodup
    decide
  · simp [Operation.Finalizing]
  · exact .refl _
  · simp [Operation.Finalizing]
  · exact .swap _ _ _

end SequenceCache

end SeqCache
