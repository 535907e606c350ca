import SeqCache.Properties.Custody
import SeqCache.Run.Contents

/-!
# Page tables along runs

A kernel reads the table that was last published in its context.  As long as every sequence
is operated with a context of its own, that table lists the storage of the pages of the
sequence, whatever other sequences do and whatever calls fail.
-/

namespace SeqCache

open Machine Program Std

variable {R : Runtime}

/-! ## Listed storage -/

/-- The table lists the storage of those pages that are still live. -/
def Lists (pages : Pages R.Page) : List PageId → List R.Page → Prop :=
  List.Forall₂ fun id storage =>
    (∃ page, pages.get? id = some page ∧ page.physical = some storage) ∨ pages.Expired id

/-- Pages that are live in both keep their storage. -/
structure Firm {Page : Type} (pages pages' : Pages Page) : Prop where
  advances : Arena.Advances pages pages'
  storage : ∀ id page page', pages.get? id = some page → pages'.get? id = some page' →
    page'.physical = page.physical

section Lists

variable {pages pages' : Pages R.Page} {ids : List PageId} {table : List R.Page}

theorem Steady.firm (h : Steady pages pages') : Firm pages pages' where
  advances := h.advances
  storage id page page' hpage hpage' := (h.alike id page page' hpage hpage').1

theorem Firm.refl (pages : Pages R.Page) : Firm pages pages := (Steady.refl pages).firm

theorem Lists.firm (h : Lists pages ids table) (hfirm : Firm pages pages') :
    Lists pages' ids table := by
  refine h.imp fun id storage hlisted => ?_
  rcases hlisted with ⟨page, hpage, hstorage⟩ | hexpired
  · rcases hfirm.advances.live_or_expired hpage with ⟨page', hpage'⟩ | hexpired
    · exact Or.inl ⟨page', hpage', (hfirm.storage id page page' hpage hpage').trans hstorage⟩
    · exact Or.inr hexpired
  · exact Or.inr (hfirm.advances.expired hexpired)

theorem Stored.lists (h : Stored pages ids table) : Lists pages ids table := by
  induction ids generalizing table with
  | nil =>
      rw [List.map_eq_nil_iff.mp h.symm]
      exact .nil
  | cons id rest ih =>
      cases table with
      | nil => cases h
      | cons storage table =>
          obtain ⟨hfirst, hrest⟩ := List.cons.inj h
          exact .cons (Or.inl (Option.bind_eq_some_iff.mp hfirst)) (ih hrest)

/-- A table of live pages lists the storage of all of them. -/
theorem Lists.stored (h : Lists pages ids table)
    (hlive : ∀ id ∈ ids, ∃ page, pages.get? id = some page) : Stored pages ids table := by
  induction h with
  | nil => rfl
  | @cons id storage ids table hlisted _ ih =>
      have hfirst : (pages.get? id).bind PageRecord.physical = some storage := by
        rcases hlisted with ⟨page, hpage, hstorage⟩ | hexpired
        · exact Option.bind_eq_some_iff.mpr ⟨page, hpage, hstorage⟩
        · obtain ⟨page, hpage⟩ := hlive id List.mem_cons_self
          rw [hexpired.get?] at hpage
          cases hpage
      have hrest := ih fun other hmem => hlive other (List.mem_cons_of_mem _ hmem)
      exact congrArg₂ List.cons hfirst hrest

end Lists

namespace SequenceCache

/-! ## Changes -/

variable {owner : SequenceId → R.Context} {cache cache' start : SequenceCache R}

/-- The context of the sequence shows its table, at its position. -/
def Shown (owner : SequenceId → R.Context) (cache : SequenceCache R) (id : SequenceId)
    (record : SequenceRecord R.AppendTransaction) : Prop :=
  ∃ table, Lists cache.pages record.heldPages table ∧
    Shows (owner id) table record.position cache.backend

/-- What happens elsewhere leaves the table of a sequence where it is. -/
theorem Shown.frame {id : SequenceId} {record record' : SequenceRecord R.AppendTransaction}
    (h : Shown owner cache id record) (hfirm : Firm cache.pages cache'.pages)
    (hheld : record'.heldPages = record.heldPages) (hposition : record'.position = record.position)
    (hshows : ∀ table, Shows (owner id) table record.position cache.backend →
      Shows (owner id) table record.position cache'.backend) : Shown owner cache' id record' := by
  obtain ⟨table, hlists, htable⟩ := h
  refine ⟨table, ?_, ?_⟩
  · rw [hheld]
    exact hlists.firm hfirm
  · rw [hposition]
    exact hshows table htable

/-- A publication in another context shows nothing new here. -/
theorem shows_of_other {context other : R.Context} {table : List R.Page} {position : ℕ}
    {event : R.Event} {history : R.History} {published : List R.Page × ℕ}
    (hevent : event.publication? = some (other, published)) (hne : context ≠ other)
    (h : Shows context table position history) : Shows context table position (event :: history) :=
  (shows_of_elsewhere hevent hne.symm).mpr h

theorem Accepted.publication {record : SequenceRecord R.AppendTransaction}
    {pending : PendingAppend R.AppendTransaction} {context : R.Context} {committed : ℕ}
    {event : R.Event} (h : Accepted cache record pending context committed event)
    (hlength : record.pages.length = record.position ⌈/⌉ cache.config.pageTokens) :
    ∃ table, event.publication? = some (context, table, record.position + committed) ∧
      Stored cache.pages (record.pages ++ keptPages cache.config.pageTokens record
        pending committed) table := by
  cases h with
  | commit commit transaction _ hposition _ hstored _ _ =>
      refine ⟨commit.committedPages, ?_, hstored⟩
      rw [← hposition]
      rfl
  | abort restored released transaction _ hstored _ =>
      refine ⟨restored, rfl, ?_⟩
      rw [keptPages_zero hlength, List.append_nil]
      exact hstored

theorem Settled.firm {sequence : SequenceId} {record : SequenceRecord R.AppendTransaction}
    {pending : PendingAppend R.AppendTransaction} {committed : ℕ} {event : R.Event}
    (h : Settled cache cache' sequence record pending committed event) :
    Firm cache.pages cache'.pages where
  advances := h.advances
  storage := by
    intro id page page' hpage hpage'
    rw [h.pages, hpage] at hpage'
    split_ifs at hpage'
    rw [← Option.some.inj hpage']
    exact PageRecord.mark_physical page

section Chains

variable {orphans : List PageId} {uses : SequenceId → R.Context → Prop} {opens : R.Context → Prop}

/-- A sequence is live. -/
def Live (cache : SequenceCache R) (id : SequenceId) : Prop :=
  ∃ record, cache.sequences.get? id = some record

/-- Sequences that lived at the start and still do are shown, and only a call that opens a
sequence makes one appear. -/
structure Displays (owner : SequenceId → R.Context) (opens : R.Context → Prop)
    (start cache : SequenceCache R) : Prop where
  old : ∀ id, cache.Live id → start.Live id ∨ ∃ context, opens context
  shown : ∀ id record, start.Live id → cache.sequences.get? id = some record →
    Shown owner cache id record

/-- Every sequence has a context of its own, in which all calls operate it, and which no call
opens for another sequence. -/
structure Operated (owner : SequenceId → R.Context) (uses : SequenceId → R.Context → Prop)
    (opens : R.Context → Prop) (start : SequenceCache R) : Prop where
  own : ∀ id context, uses id context → context = owner id
  unused : ∀ context, opens context → ∀ id, start.Live id → owner id ≠ context
  apart : ∀ id context context', uses id context → ¬ opens context'
  separate : ∀ id id', start.Live id → start.Live id' → owner id = owner id' → id = id'

theorem Displays.frame (h : Displays owner opens start cache)
    (hfirm : Firm cache.pages cache'.pages)
    (hsequences : ∀ id record', cache'.sequences.get? id = some record' →
      ∃ record, cache.sequences.get? id = some record ∧ record'.heldPages = record.heldPages ∧
        record'.position = record.position)
    (hshows : ∀ id, start.Live id → ∀ table position,
      Shows (owner id) table position cache.backend →
      Shows (owner id) table position cache'.backend) : Displays owner opens start cache' := by
  constructor
  · rintro id ⟨record', hrecord'⟩
    obtain ⟨record, hrecord, -⟩ := hsequences id record' hrecord'
    exact h.old id ⟨record, hrecord⟩
  · intro id record' hlive hrecord'
    obtain ⟨record, hrecord, hheld, hposition⟩ := hsequences id record' hrecord'
    exact (h.shown id record hlive hrecord).frame hfirm hheld hposition fun table =>
      hshows id hlive table record.position

/-- One sequence has a new table, which its context shows. -/
theorem Displays.update (h : Displays owner opens start cache)
    (hoperated : Operated owner uses opens start) {sequence : SequenceId} {context : R.Context}
    (huses : uses sequence context) {record updated : SequenceRecord R.AppendTransaction}
    (hlive : cache.sequences.get? sequence = some record)
    (hsequences : cache'.sequences = cache.sequences.set sequence updated)
    (hfirm : Firm cache.pages cache'.pages)
    (hself : start.Live sequence → Shown owner cache' sequence updated)
    (hothers : ∀ id, owner id ≠ context → ∀ table position,
      Shows (owner id) table position cache.backend →
        Shows (owner id) table position cache'.backend) : Displays owner opens start cache' := by
  have hget : ∀ id, cache'.sequences.get? id =
      if id = sequence then some updated else cache.sequences.get? id := by
    intro id
    rw [hsequences]
    exact Arena.get?_set hlive
  have hlived : start.Live sequence :=
    (h.old sequence ⟨record, hlive⟩).resolve_right fun hopened =>
      hoperated.apart sequence context _ huses hopened.choose_spec
  constructor
  · rintro id ⟨found, hfound⟩
    rw [hget] at hfound
    split_ifs at hfound with heq
    · exact Or.inl (heq ▸ hlived)
    · exact h.old id ⟨found, hfound⟩
  · intro id found hfirst hfound
    rw [hget] at hfound
    split_ifs at hfound with heq
    · rw [← Option.some.inj hfound, heq]
      exact hself hlived
    · refine (h.shown id found hfirst hfound).frame hfirm rfl rfl fun table =>
        hothers id (fun hsame => heq ?_) table found.position
      exact hoperated.separate id sequence hfirst hlived
        (hsame.trans (hoperated.own sequence context huses))

theorem Change.displays (h : Change orphans uses opens cache cache')
    (hoperated : Operated owner uses opens start) (hfollows : Follows start cache)
    (hdisplays : Displays owner opens start cache) : Displays owner opens start cache' := by
  have hsame : ∀ {state state' : SequenceCache R}, state'.sequences = state.sequences →
      ∀ id record', state'.sequences.get? id = some record' →
        ∃ record, state.sequences.get? id = some record ∧ record'.heldPages = record.heldPages ∧
          record'.position = record.position :=
    fun heq id record' hrecord' => ⟨record', heq ▸ hrecord', rfl, rfl⟩
  cases h with
  | quiet hquiet hcalls =>
      refine hdisplays.frame (hquiet.pages ▸ .refl _) (fun id record' hrecord' => ?_)
        fun _ _ table position => hcalls.shows_iff.mpr
      obtain ⟨change, hupdated⟩ := hquiet.sequences
      rw [hupdated.get?] at hrecord'
      obtain ⟨record, hrecord, rfl⟩ := Option.map_eq_some_iff.mp hrecord'
      exact ⟨record, hrecord, record.mapTransaction_heldPages _, rfl⟩
  | interned hinterns =>
      rw [hinterns.state]
      exact hdisplays.frame (.refl _) (hsame rfl) fun _ _ _ _ h => h
  | @published context table position hopens =>
      refine hdisplays.frame (.refl _) (hsame rfl) fun id hlive table' position' hshown => ?_
      exact (publish_shows_iff (hoperated.unused context hopens id hlive).symm).mpr hshown
  | evicted _ hevicted =>
      exact hdisplays.frame hevicted.steady.firm (hsame hevicted.sequences)
        fun _ _ table position => hevicted.retirement.shows_iff.mpr
  | reclaimed _ hreclaimed =>
      refine hdisplays.frame ?_ (hsame (congrArg SequenceCache.sequences hreclaimed.state :))
        fun _ _ table position => hreclaimed.shows_iff.mpr
      exact (congrArg SequenceCache.pages hreclaimed.state :) ▸ .refl _
  | @admitted _ context _ _ _ _ sequence record hopens hadmitted _ _ _ =>
      have hbackend : cache'.backend = cache.backend :=
        (congrArg SequenceCache.backend hadmitted.state :)
      constructor
      · exact fun _ _ => Or.inr ⟨context, hopens⟩
      · intro id found hlive hfound
        have hget := hadmitted.sequences id
        by_cases heq : id = sequence
        · -- The new sequence did not live at the start, for its identity would be used up.
          obtain ⟨old, hold⟩ := hlive
          obtain ⟨between, hbetween⟩ | hexpired := hfollows.sequences.live_or_expired hold
          · rw [heq, hadmitted.absent] at hbetween
            cases hbetween
          · rw [(hadmitted.advances.expired hexpired).get?] at hfound
            cases hfound
        · rw [if_neg heq] at hget
          refine (hdisplays.shown id found hlive (hget ▸ hfound)).frame
            (Steady.ofGrows hadmitted.pages).firm rfl rfl fun table hshown => ?_
          rw [hbackend]
          exact hshown
  | @reserved _ _ sequence record rows context transaction fresh allocations prepared huses hinv
      hreserved =>
      have hfirm : Firm cache.pages cache'.pages := (Steady.ofGrows hreserved.pages).firm
      refine hdisplays.update hoperated huses hreserved.live
        (congrArg SequenceCache.sequences hreserved.state :) hfirm (fun hlive => ?_) ?_
      · obtain ⟨table, hlists, hshown⟩ := hdisplays.shown sequence record hlive hreserved.live
        rw [heldPages_of_pending_none hreserved.pending] at hlists
        have hfresh : Lists cache'.pages fresh allocations := by
          refine Stored.lists ?_
          have hrecords := congrArg (List.map fun found : Option (PageRecord R.Page) =>
            found.bind PageRecord.physical) hreserved.records
          simp only [List.map_map] at hrecords
          exact hrecords
        rcases hreserved.extended with ⟨rfl, hbackend⟩ | ⟨stored, -, hstored, hbackend⟩
        · refine ⟨table, ?_, ?_⟩
          · have hnone : fresh = [] := List.map_eq_nil_iff.mp hreserved.records
            rw [hnone]
            change Lists cache'.pages (record.pages ++ []) table
            rw [List.append_nil]
            exact hlists.firm hfirm
          · rw [hbackend]
            exact hreserved.calls.shows_iff.mpr hshown
        · refine ⟨stored ++ allocations, ?_, ?_⟩
          · exact List.rel_append (hstored.lists.firm hfirm) hfresh
          · rw [hbackend, ← hoperated.own sequence context huses]
            exact shows_of_published rfl
      · intro id hne table position hshown
        have hprepared := hreserved.calls.shows_iff.mpr hshown
        rcases hreserved.extended with ⟨-, hbackend⟩ | ⟨stored, -, -, hbackend⟩
        · rw [hbackend]
          exact hprepared
        · rw [hbackend]
          exact shows_of_other rfl hne hprepared
  | @settled _ _ sequence record pending context committed event huses hinv haccepted hsettled =>
      have hok := hinv.owned.sequence sequence record hsettled.live
      obtain ⟨table, hevent, hstored⟩ := haccepted.publication hok.length_pages
      have hbackend : cache'.backend = event :: cache.backend :=
        (congrArg SequenceCache.backend hsettled.state :)
      refine hdisplays.update hoperated huses hsettled.live
        (congrArg SequenceCache.sequences hsettled.state :) hsettled.firm (fun _ => ?_) ?_
      · refine ⟨table, ?_, ?_⟩
        · rw [heldPages_of_pending_none rfl]
          exact hstored.lists.firm hsettled.firm
        · rw [hbackend, ← hoperated.own sequence context huses]
          exact shows_of_published hevent
      · intro id hne table' position hshown
        rw [hbackend]
        exact shows_of_other hevent hne hshown
  | @finished _ _ sequence record context physical deferred _ hfinished =>
      have hsteady : Steady cache.pages cache'.pages :=
        .ofRemoved hfinished.advances hfinished.pages fun _ _ => ⟨rfl, rfl⟩
      refine hdisplays.frame hsteady.firm (fun id found hfound => ?_)
        fun _ _ table position => hfinished.retirement.shows_iff.mpr
      have hget : cache'.sequences.get? id =
          if id = sequence then none else cache.sequences.get? id := by
        rw [(congrArg SequenceCache.sequences hfinished.state :)]
        exact Arena.get?_release hfinished.live
      rw [hget] at hfound
      split_ifs at hfound
      exact ⟨found, hfound, rfl, rfl⟩

theorem Progress.displays (h : Progress orphans uses opens start cache)
    (hoperated : Operated owner uses opens start)
    (hdisplays : Displays owner opens start start) : Displays owner opens start cache := by
  induction h with
  | refl => exact hdisplays
  | tail hprogress hchange ih => exact hchange.displays hoperated (Progress.follows hprogress) ih

end Chains

/-! ## New sequences -/

/-- A call opened at most the sequence that it returned, and shows its table in the context. -/
def OpensOnly (context : R.Context) (cache : SequenceCache R) (outcome : AdmissionOutcome)
    (cache' : SequenceCache R) : Prop :=
  ∀ id record, cache'.sequences.get? id = some record → cache.Live id ∨
    outcome = .admitted id ∧ ∃ table, Stored cache'.pages record.heldPages table ∧
      Shows context table record.position cache'.backend

section Admissions

variable {orphans : List PageId} {stray : List TokenBlockId} {context : R.Context}

theorem Admission.opensOnly {limit : ℕ} {protectedEntry : Option PrefixEntryId}
    {flight table : List R.Page} {shared fresh retired : List PageId} {id : SequenceId}
    {record : SequenceRecord R.AppendTransaction} {plan : List PrefixEntryId}
    {start evicted : SequenceCache R} {physical : List R.Page} {deferred : ℕ}
    (h : Admission cache cache' limit protectedEntry flight context shared fresh id record plan
      start evicted retired physical deferred) (hstored : Stored cache.pages shared table)
    (hshows : Shows context (table ++ flight) record.position start.backend) :
    OpensOnly context cache (.admitted id) cache' := by
  have hpages : start.pages = cache.pages := (congrArg SequenceCache.pages h.published :)
  have hsequences : start.sequences = cache.sequences :=
    (congrArg SequenceCache.sequences h.published :)
  intro other found hfound
  have hget := h.admitted.sequences other
  rw [hfound] at hget
  split_ifs at hget with heq
  · obtain rfl := heq
    obtain rfl := Option.some.inj hget
    refine Or.inr ⟨rfl, table ++ flight, ?_, ?_⟩
    · rw [heldPages_of_pending_none h.admitted.pending]
      exact h.admitted.stored_table h.carried_out (hpages ▸ hstored)
    · rw [(congrArg SequenceCache.backend h.admitted.state :)]
      exact h.carried_out.retirement.shows_iff.mpr hshows
  · rw [h.carried_out.sequences, hsequences] at hget
    exact Or.inl ⟨found, hget.symm⟩

theorem opensOnly_of_eq (h : cache'.sequences = cache.sequences) (outcome : AdmissionOutcome) :
    OpensOnly context cache outcome cache' :=
  fun _ record hrecord => Or.inl ⟨record, h ▸ hrecord⟩

theorem admitSequence_opensOnly (hlaw : R.Retires) (hinv : Inv orphans stray cache)
    (prefixMatch : Option PrefixMatch) (request : AdmissionRequest) (context : R.Context)
    (restore : Option R.Snapshot → ℕ → Except R.Error Unit) :
    Ends (admitSequence prefixMatch request context restore cache)
      (fun outcome cache' => OpensOnly context cache outcome cache')
      (fun _ cache' => cache'.sequences = cache.sequences) := by
  refine Ends.mono (admitSequence_spec hlaw hinv prefixMatch request context restore) ?_ ?_
  · rintro outcome cache' ⟨-, reclaimed, middle, hreclaimed, -, hadmits⟩
    have hsequences : middle.sequences = cache.sequences :=
      (congrArg SequenceCache.sequences hreclaimed.state :)
    rcases hadmits with ⟨-, rfl, -⟩ | ⟨protectedEntry, position, shared, reservedPages, extra,
      limit, plan, table, id, evicted, retired, physical, deferred, rfl, hopened, hadmission⟩
    · exact opensOnly_of_eq hsequences outcome
    · have honly := hadmission.opensOnly (stored_of_physicalRefsFrom hopened.resolved)
        (by rw [List.append_nil]; exact shows_publish middle context table position)
      intro other record hrecord
      refine (honly other record hrecord).imp_left ?_
      rintro ⟨found, hfound⟩
      exact ⟨found, hsequences ▸ hfound⟩
  · rintro failure cache' ⟨-, hcalled | ⟨reclaimed, middle, hreclaimed, -, hfailed⟩⟩
    · exact (congrArg SequenceCache.sequences hcalled.state :)
    · have hsequences : middle.sequences = cache.sequences :=
        (congrArg SequenceCache.sequences hreclaimed.state :)
      rcases hfailed with hcalled | ⟨_, _, _, _, _, _, _, _, -, -, hcalled⟩
      · exact (congrArg SequenceCache.sequences hcalled.state :).trans hsequences
      · exact (congrArg SequenceCache.sequences hcalled.state :).trans hsequences

theorem branch_opensOnly (hlaw : R.Retires) (hinv : Inv orphans stray cache) (source : SequenceId)
    (request : AdmissionRequest) (context : R.Context) :
    Ends (branch source request context cache)
      (fun outcome cache' => OpensOnly context cache outcome cache')
      (fun _ cache' => cache'.sequences = cache.sequences) := by
  refine Ends.mono (branch_spec hlaw hinv source request context) ?_ ?_
  · rintro outcome cache' ⟨-, ⟨-, rfl, -⟩ | ⟨record, copied, history, reservedPages, extra, limit,
      fresh, id, plan, start, evicted, retired, physical, deferred, rfl, hforked, hadmission⟩⟩
    · exact opensOnly_of_eq rfl outcome
    · obtain ⟨table, hstored, -, hstart⟩ := hforked.copies.published
      refine hadmission.opensOnly hstored ?_
      rw [hstart]
      exact shows_publish _ context _ _
  · rintro failure cache' ⟨-, ⟨hcalled, -⟩ | ⟨_, _, _, _, _, _, _, _, hforked, -, hcalled⟩⟩
    · exact (congrArg SequenceCache.sequences hcalled.state :)
    · exact (congrArg SequenceCache.sequences hcalled.state :).trans
        (congrArg SequenceCache.sequences hforked.copies.state :)

end Admissions

/-! ## Runs -/

/-- Every live sequence is shown in its context, which is its own. -/
structure Displayed (owner : SequenceId → R.Context) (cache : SequenceCache R) : Prop where
  shown : ∀ id record, cache.sequences.get? id = some record →
    ∃ table, Stored cache.pages record.heldPages table ∧
      Shows (owner id) table record.position cache.backend
  separate : ∀ id id', cache.Live id → cache.Live id' → owner id = owner id' → id = id'

/-- The call operates sequences with their own contexts, and opens one in an unused context. -/
structure Disciplined (owner : SequenceId → R.Context) (cache : SequenceCache R)
    (operation : Operation R) : Prop where
  own : ∀ id context, operation.uses id context → context = owner id
  unused : ∀ context, operation.opens context → ∀ id, cache.Live id → owner id ≠ context
  opened : ∀ context, operation.opens context → ∀ id,
    operation.result cache = .ok (.admission (.admitted id)) → owner id = context

section Runs

variable {orphans : List PageId} {stray : List TokenBlockId} {operation : Operation R}

/-- What is known of an admission is known of the call that runs it. -/
theorem opened_of_ends {program : CacheM R AdmissionOutcome} {context : R.Context}
    (hrun : operation.run = Reply.admission <$> program)
    (h : Ends (program cache) (fun outcome cache' => OpensOnly context cache outcome cache')
      (fun _ cache' => cache'.sequences = cache.sequences)) {id : SequenceId}
    {record : SequenceRecord R.AppendTransaction} (hnew : ¬ cache.Live id)
    (hrecord : (operation.step cache).sequences.get? id = some record) :
    operation.result cache = .ok (.admission (.admitted id)) ∧
      ∃ table, Stored (operation.step cache).pages record.heldPages table ∧
        Shows context table record.position (operation.step cache).backend := by
  rw [Operation.step, hrun] at hrecord ⊢
  rw [Operation.result, hrun]
  cases hprogram : program cache with
  | ok outcome cache' =>
      rw [hprogram] at h
      rw [map_ok Reply.admission hprogram] at hrecord ⊢
      obtain ⟨rfl, hshown⟩ := (h id record hrecord).resolve_left hnew
      exact ⟨rfl, hshown⟩
  | error failure cache' =>
      rw [hprogram] at h
      rw [map_error Reply.admission hprogram] at hrecord
      exact absurd ⟨record, h ▸ hrecord⟩ hnew

theorem opened_new (hlaw : R.Retires) (hinv : Inv orphans stray cache) {context : R.Context}
    (hopens : operation.opens context) {id : SequenceId}
    {record : SequenceRecord R.AppendTransaction} (hnew : ¬ cache.Live id)
    (hrecord : (operation.step cache).sequences.get? id = some record) :
    operation.result cache = .ok (.admission (.admitted id)) ∧
      ∃ table, Stored (operation.step cache).pages record.heldPages table ∧
        Shows context table record.position (operation.step cache).backend := by
  cases operation with
  | admitSequence prefixMatch request other restore =>
      obtain rfl : context = other := hopens
      exact opened_of_ends rfl
        (admitSequence_opensOnly hlaw hinv prefixMatch request context restore) hnew hrecord
  | branch source request other =>
      obtain rfl : context = other := hopens
      exact opened_of_ends rfl (branch_opensOnly hlaw hinv source request context) hnew hrecord
  | _ => exact hopens.elim

theorem Disciplined.operated (h : Disciplined owner cache operation)
    (hpublished : Displayed owner cache) :
    Operated owner operation.uses operation.opens cache where
  own := h.own
  unused := h.unused
  apart id context context' huses hopens := by
    cases operation with
    | admitSequence _ _ _ _ => exact huses
    | branch _ _ _ => exact huses
    | _ => exact hopens
  separate := hpublished.separate

/-- A call shows what it showed at the start to those who stay. -/
theorem Evolves.displays {strays : Prop} {uses : SequenceId → R.Context → Prop}
    {opens : R.Context → Prop} {result : Except (Failure R.Error) (Reply R)}
    (h : Evolves orphans stray strays uses opens cache result cache')
    (hoperated : Operated owner uses opens cache) (hintact : ¬ Exhausted result)
    (hdisplays : Displays owner opens cache cache) : Displays owner opens cache cache' := by
  cases h with
  | progressed hprogress _ _ _ => exact Progress.displays hprogress hoperated hdisplays
  | touched htouched _ =>
      rw [htouched.state]
      exact hdisplays.frame (.refl _) (fun _ record hrecord => ⟨record, hrecord, rfl, rfl⟩)
        fun _ _ _ _ hshown => hshown
  | @retained middle _ _ _ _ _ hprogress hretained _ _ _ =>
      have hmiddle := Progress.displays hprogress hoperated hdisplays
      have hsequences : cache'.sequences = middle.sequences :=
        (congrArg SequenceCache.sequences hretained.state :)
      have hbackend : cache'.backend = middle.backend :=
        (congrArg SequenceCache.backend hretained.state :)
      refine hmiddle.frame (Steady.ofUpdated hretained.pages fun _ _ => ⟨rfl, rfl⟩).firm
        (fun _ record hrecord => ⟨record, hsequences ▸ hrecord, rfl, rfl⟩) fun _ _ _ _ hshown => ?_
      rw [hbackend]
      exact hshown
  | torn _ _ _ _ hexhausted _ _ => exact absurd hexhausted hintact

/-- Calls that respect the contexts keep every sequence shown in its own. -/
theorem Displayed.step (h : Displayed owner cache) (hlaw : R.Retires)
    (hinv : Inv [] stray cache) (hdisciplined : Disciplined owner cache operation)
    (hintact : ¬ Exhausted (operation.result cache)) :
    Displayed owner (operation.step cache) := by
  have hstart : Displays owner operation.opens cache cache := by
    refine ⟨fun _ => Or.inl, fun id record _ hrecord => ?_⟩
    obtain ⟨table, hstored, hshown⟩ := h.shown id record hrecord
    exact ⟨table, hstored.lists, hshown⟩
  have hdisplays := (operation.evolves hlaw hinv).displays (hdisciplined.operated h) hintact hstart
  obtain ⟨stray', hinv', -⟩ := operation.inv_of_intact hlaw hinv hintact
  -- Who is new was opened by this call, in a context that no one else has.
  have hnew : ∀ id record, (operation.step cache).sequences.get? id = some record →
      ¬ cache.Live id → operation.opens (owner id) ∧
        operation.result cache = .ok (.admission (.admitted id)) ∧
          ∃ table, Stored (operation.step cache).pages record.heldPages table ∧
            Shows (owner id) table record.position (operation.step cache).backend := by
    intro id record hrecord hnot
    obtain ⟨context, hopens⟩ := (hdisplays.old id ⟨record, hrecord⟩).resolve_left hnot
    obtain ⟨hresult, hshown⟩ := opened_new hlaw hinv hopens hnot hrecord
    have howner := hdisciplined.opened context hopens id hresult
    exact howner ▸ ⟨hopens, hresult, hshown⟩
  constructor
  · intro id record hrecord
    by_cases hlive : cache.Live id
    · obtain ⟨table, hlists, hshown⟩ := hdisplays.shown id record hlive hrecord
      exact ⟨table, hlists.stored fun page hmem => hinv'.held_live hrecord hmem, hshown⟩
    · exact (hnew id record hrecord hlive).2.2
  · rintro id id' ⟨record, hrecord⟩ ⟨record', hrecord'⟩ hsame
    by_cases hlive : cache.Live id
    · by_cases hlive' : cache.Live id'
      · exact h.separate id id' hlive hlive' hsame
      · exact absurd hsame (hdisciplined.unused _ (hnew id' record' hrecord' hlive').1 id hlive)
    · by_cases hlive' : cache.Live id'
      · exact absurd hsame.symm (hdisciplined.unused _ (hnew id record hrecord hlive).1 id' hlive')
      · obtain ⟨-, hresult, -⟩ := hnew id record hrecord hlive
        obtain ⟨-, hresult', -⟩ := hnew id' record' hrecord' hlive'
        rw [hresult] at hresult'
        cases hresult'
        rfl

/-- In every run in which every sequence is operated with a context of its own, whatever
calls fail, the table last published in the context of a live sequence lists the storage of
its pages and of the new pages of its pending append, at its position. -/
theorem tables_published (hlaw : R.Retires) {config : CacheConfig}
    (hnew : SequenceCache.new R config = .ok start)
    (hreach : Reachable Operation.step (fun cache operation =>
      ¬ Exhausted (operation.result cache) ∧ Disciplined owner cache operation) start cache) :
    Displayed owner cache := by
  have hboth : (∃ stray, Inv [] stray cache) ∧ Displayed owner cache := by
    induction hreach with
    | start =>
        refine ⟨⟨[], inv_of_new hnew⟩, ?_⟩
        obtain ⟨-, rfl⟩ := new_eq_ok.mp hnew
        constructor
        · intro id record hrecord
          cases hrecord
        · rintro id id' ⟨record, hrecord⟩
          cases hrecord
    | step operation _ hallowed ih =>
        obtain ⟨⟨stray, hinv⟩, hpublished⟩ := ih
        obtain ⟨stray', hinv', -⟩ := operation.inv_of_intact hlaw hinv hallowed.1
        exact ⟨⟨stray', hinv'⟩, hpublished.step hlaw hinv hallowed.2 hallowed.1⟩
  exact hboth.2

end Runs

end SequenceCache

namespace Reference

open SequenceCache

/-- The only context of the run. -/
def lone : SequenceId → plain.Context := fun _ => (7 : ℕ)

/-- Two of three reserved rows are committed. -/
def shortening : Operation plain :=
  .commitAppend ⟨⟨0, 0⟩, 0, 3, [⟨⟨0, 0⟩, 0, 0, 2⟩, ⟨⟨1, 0⟩, 0, 2, 1⟩], 0⟩ 2 7

/-- A call that operates the first sequence. -/
theorem disciplined_of_uses {cache : SequenceCache plain} {operation : Operation plain}
    (huses : ∀ id context, operation.uses id context → context = (7 : ℕ))
    (hopens : ∀ context, ¬ operation.opens context) : Disciplined lone cache operation :=
  ⟨huses, fun context h => absurd h (hopens context), fun context h => absurd h (hopens context)⟩

theorem disciplined_admission : Disciplined lone start (admission 7) := by
  refine ⟨fun _ _ huses => huses.elim, fun context _ id hlive => ?_, fun context hopens _ _ =>
    hopens.symm⟩
  obtain ⟨record, hrecord⟩ := hlive
  cases hrecord

end Reference

open Reference in
/-- After a partial commit the context shows the kept page, at the committed position. -/
theorem SequenceCache.tables_published_shortened :
    Displayed lone (after [admission 7, .reserveAppend ⟨0, 0⟩ 3 7, shortening]) ∧
      ((after [admission 7, .reserveAppend ⟨0, 0⟩ 3 7, shortening]).sequences.get? ⟨0, 0⟩).map
        (fun record => (record.heldPages, record.position)) = some ([⟨0, 0⟩], 2) := by
  have hrecord : ((after [admission 7, .reserveAppend ⟨0, 0⟩ 3 7, shortening]).sequences.get?
      ⟨0, 0⟩).map (fun record => (record.heldPages, record.position)) = some ([⟨0, 0⟩], 2) := by
    decide +kernel
  have hlaw : plain.Retires := plain_lawful.toRetires
  refine ⟨tables_published hlaw new_start (Reachable.start.runAll ⟨⟨?_, ?_⟩, ⟨?_, ?_⟩, ⟨?_, ?_⟩,
    trivial⟩), hrecord⟩
  · decide +kernel
  · exact disciplined_admission
  · decide +kernel
  · exact disciplined_of_uses (fun _ _ huses => huses.2) fun _ hopens => hopens
  · decide +kernel
  · exact disciplined_of_uses (fun _ _ huses => huses.2) fun _ hopens => hopens

end SeqCache
