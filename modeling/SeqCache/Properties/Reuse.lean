import SeqCache.Properties.Contents
import SeqCache.Properties.Index

/-!
# Rows along runs

A run of the cache over a backend that stores rows is a run of the books of its sequences
and entries: each call does what its result says, and between calls only drafts change.  So
sequences only grow and retained rows stay, and a prefix that is found under some tokens has
the rows that were computed for them.
-/

namespace SeqCache

open Machine Program Std

variable {R : Runtime} {Row : Type}

/-! ## Runs -/

/-- A cache, and what its backend stores. -/
structure Store (R : Runtime) (Row : Type) where
  cache : SequenceCache R
  memory : R.Page → ℕ → Row

/-- A call that leaves the given rows behind, or writes between the calls. -/
inductive Deed (R : Runtime) (Row : Type)
  | call (operation : Operation R) (memory : R.Page → ℕ → Row)
  | write (memory : R.Page → ℕ → Row)

/-- What a deed does to the books: a call what its result says, and writes nothing. -/
def Deed.Does : Deed R Row → Store R Row → Books SequenceId PrefixEntryId Row →
    Books SequenceId PrefixEntryId Row → Prop
  | .call operation _, store, books, books' =>
      ∃ middle, HasEffect operation (operation.result store.cache) books middle ∧
        middle.Redrafted books'
  | .write _, _, books, books' => books.Redrafted books'

namespace Store

/-- The rows of all sequences and entries. -/
def rows (store : Store R Row) : Books SequenceId PrefixEntryId Row :=
  store.cache.contents store.memory

def step : Deed R Row → Store R Row → Store R Row
  | .call operation memory, store => ⟨operation.step store.cache, memory⟩
  | .write memory, store => ⟨store.cache, memory⟩

/-- There are as many rows as the records say. -/
structure Measured (store : Store R Row) : Prop where
  sequence : ∀ id record, store.cache.sequences.get? id = some record →
    ∃ account, store.rows.accounts id = some account ∧ account.rows.length = record.position ∧
      account.draft.map List.length = record.pending.map PendingAppend.rows
  entry : ∀ (id : PrefixEntryId) (entry : PrefixEntry R.Snapshot),
    store.cache.prefixes[id]? = some entry →
      ∃ rows, store.rows.frozen id = some rows ∧ rows.length = entry.position

variable [DecidableEq R.Page]

/-- No identity runs out, the backend hands out pages that are not outstanding and keeps
its promises about rows, and between calls only pending appends are written. -/
def Allowed (store : Store R Row) : Deed R Row → Prop
  | .call operation memory => ¬ Exhausted (operation.result store.cache) ∧
      SequenceCache.HandsOutFresh (operation.step store.cache).backend ∧
        SequenceCache.Respects store.cache (operation.step store.cache) store.memory memory
  | .write memory => SequenceCache.Writes store.cache store.memory memory

end Store

open SequenceCache

/-! ## Lengths -/

section Lengths

variable {Page Transaction Snapshot : Type} {pages : Pages Page} {pageTokens : ℕ}

theorem SequenceOk.length_cellsOf {record : SequenceRecord Transaction} (hpos : 0 < pageTokens)
    (h : SequenceOk [] pageTokens pages record) :
    (cellsOf pages record.pages).length = record.position := by
  have hreach : record.position ≤ (0 + record.pages.length) * pageTokens := by
    rw [Nat.zero_add, h.length_pages]
    exact (ceilDiv_le_iff hpos).mp le_rfl
  have hlocated : ∀ place ∈ Paging.rowsBetween pageTokens 0 record.position 0 record.pages,
      (locate pages place).isSome := by
    intro place hmem
    obtain ⟨page, hpage, hphysical⟩ := h.live (mem_pages_heldPages (mem_rowsBetween hmem))
    rw [locate, hpage, Option.isSome_map]
    exact hphysical
  rw [h.cellsOf_eq, List.filterMap_length_eq_length.mpr hlocated, Paging.length_rowsBetween,
    Nat.zero_mul, Nat.min_eq_left hreach, Nat.max_zero, Nat.sub_zero]

theorem EntryOk.length_cellsOf {entry : PrefixEntry Snapshot}
    (h : EntryOk pageTokens pages entry) :
    (cellsOf pages entry.pages).length = entry.position := by
  rw [← h.position_eq, cellsOf]
  have hheld := h.held
  generalize entry.pages = ids at hheld
  induction ids with
  | nil => rw [List.flatMap_nil, List.filterMap_nil, List.length_nil, List.length_nil, Nat.zero_mul]
  | cons id rest ih =>
      obtain ⟨page, hpage, hphysical, -, hvalid⟩ := hheld id List.mem_cons_self
      have hrest := ih fun other hmem => hheld other (List.mem_cons_of_mem _ hmem)
      have hfirst : (((List.range (validRowsOf pages id)).map (id, ·)).filterMap
          (locate pages)).length = pageTokens := by
        rw [List.filterMap_length_eq_length.mpr, List.length_map, List.length_range, validRowsOf,
          hpage]
        · exact hvalid
        · intro place hmem
          obtain ⟨row, -, rfl⟩ := List.mem_map.mp hmem
          rw [locate, hpage, Option.isSome_map]
          exact hphysical
      rw [List.flatMap_cons, List.filterMap_append, List.length_append, hfirst, hrest,
        List.length_cons, Nat.succ_mul, Nat.add_comm]

theorem Store.measured {store : Store R Row} {stray : List TokenBlockId}
    (hinv : Inv [] stray store.cache) : store.Measured := by
  constructor
  · intro id record hrecord
    have hok := hinv.owned.sequence id record hrecord
    have hpos := hinv.config.pageTokens_pos
    have haccount : store.cache.books.accounts id = some (record.account store.cache.pages) :=
      congrArg (Option.map (SequenceRecord.account store.cache.pages)) hrecord
    refine ⟨_, congrArg (Option.map (Account.map (Cell.read store.memory))) haccount, ?_, ?_⟩
    · exact (List.length_map _).trans (hok.length_cellsOf hpos)
    · change ((record.pending.map _).map (List.map _)).map List.length = _
      cases hpending : record.pending with
      | none => rfl
      | some pending =>
          exact congrArg some ((List.length_map _).trans (hok.length_draftCells hpos hpending))
  · intro id entry hentry
    have hfrozen : store.cache.books.frozen id = some (cellsOf store.cache.pages entry.pages) :=
      congrArg (Option.map fun entry : PrefixEntry R.Snapshot =>
        cellsOf store.cache.pages entry.pages) hentry
    refine ⟨_, congrArg (Option.map (List.map (Cell.read store.memory))) hfrozen, ?_⟩
    exact (List.length_map _).trans (hinv.owned.entry id entry hentry).length_cellsOf

end Lengths

/-! ## The refinement -/

section Refinement

variable [DecidableEq R.Page] {config : CacheConfig} {cache : SequenceCache R}
variable {memory : R.Page → ℕ → Row} {store later : Store R Row}

/-- What holds in every state of a run. -/
structure Store.Sound (store : Store R Row) : Prop where
  inv : ∃ stray, Inv [] stray store.cache
  accounted : ∃ lost, Accounted store.cache lost
  fresh : HandsOutFresh store.cache.backend

theorem Store.sound_of_new (hnew : SequenceCache.new R config = .ok cache)
    (memory : R.Page → ℕ → Row) : Store.Sound ⟨cache, memory⟩ := by
  refine ⟨⟨[], inv_of_new hnew⟩, ⟨[], accounted_new hnew⟩, ?_⟩
  obtain ⟨-, rfl⟩ := new_eq_ok.mp hnew
  trivial

theorem Store.Sound.step (h : store.Sound) (hlaw : R.Retires) {deed : Deed R Row}
    (hallowed : store.Allowed deed) : (Store.step deed store).Sound := by
  cases deed with
  | call operation memory' =>
      obtain ⟨⟨stray, hinv⟩, ⟨lost, haccounted⟩, -⟩ := h
      obtain ⟨hintact, hfresh, -⟩ := hallowed
      obtain ⟨stray', hinv', -⟩ := operation.inv_of_intact hlaw hinv hintact
      exact ⟨⟨stray', hinv'⟩, ⟨_, haccounted.step hlaw hinv fun _ => hintact⟩, hfresh⟩
  | write memory' => exact ⟨h.inv, h.accounted, h.fresh⟩

/-- Every allowed deed does to the rows what it says. -/
theorem Store.Sound.does (h : store.Sound) (hlaw : R.Retires) {deed : Deed R Row}
    (hallowed : store.Allowed deed) :
    deed.Does store store.rows (Store.step deed store).rows := by
  obtain ⟨⟨stray, hinv⟩, ⟨lost, haccounted⟩, hfresh⟩ := h
  cases deed with
  | call operation memory' =>
      obtain ⟨hintact, hlater, hrespects⟩ := hallowed
      exact operation.accomplishes hlaw hinv haccounted hintact hlater hrespects
  | write memory' =>
      exact (Still.refl store.cache).redrafted (hallowed.sameRows hinv haccounted hfresh)

theorem Store.Sound.reach (h : store.Sound) (hlaw : R.Retires)
    (hreach : Reachable Store.step Store.Allowed store later) : later.Sound :=
  Reachable.invariant h (fun _ _ hstate hallowed => hstate.step hlaw hallowed) hreach

/-- A run over a backend that keeps its promises about rows is a run of the books of its
sequences and entries, which start out empty. -/
theorem contents_refined (hlaw : R.Retires) (hnew : SequenceCache.new R config = .ok cache)
    (hreach : Reachable Store.step Store.Allowed ⟨cache, memory⟩ store) :
    (⟨cache, memory⟩ : Store R Row).rows = ⟨fun _ => none, fun _ => none⟩ ∧ store.Measured ∧
      ∀ deed, store.Allowed deed → deed.Does store store.rows (Store.step deed store).rows := by
  have hsound := (Store.sound_of_new hnew memory).reach hlaw hreach
  refine ⟨?_, Store.measured hsound.inv.choose_spec, fun deed hallowed =>
    hsound.does hlaw hallowed⟩
  obtain ⟨-, rfl⟩ := new_eq_ok.mp hnew
  rfl

end Refinement

namespace Reference

def blank : ℕ → ℕ → ℕ := fun _ _ => 0

/-- Two rows in the first page. -/
def filled : ℕ → ℕ → ℕ := fun page row => if page = 0 ∧ row < 2 then row + 11 else 0

def blankStore : Store plain ℕ := ⟨start, blank⟩

def admittedStore : Store plain ℕ := Store.step (.call (admission 7) blank) blankStore

def reservedStore : Store plain ℕ :=
  Store.step (.call (.reserveAppend ⟨0, 0⟩ 2 7) blank) admittedStore

/-- The reserved rows are written. -/
def writtenStore : Store plain ℕ := Store.step (.write filled) reservedStore

def committing : Operation plain :=
  .commitAppend ⟨⟨0, 0⟩, 0, 2, [⟨⟨0, 0⟩, 0, 0, 2⟩], 0⟩ 2 7

def committedStore : Store plain ℕ := Store.step (.call committing filled) writtenStore

/-- A call that copies nothing and leaves all rows alone. -/
theorem allowed_call {store : Store plain ℕ} {operation : Operation plain}
    {memory : ℕ → ℕ → ℕ} (hmemory : store.memory = memory)
    (hintact : ¬ Exhausted (operation.result store.cache))
    (hfresh : HandsOutFresh (operation.step store.cache).backend)
    (hcopies : ∀ event ∈ callsSince store.cache.backend (operation.step store.cache).backend,
      event.copies = false) : store.Allowed (.call operation memory) := by
  subst hmemory
  exact ⟨hintact, hfresh, .ofSame hcopies⟩

theorem allowed_admission : blankStore.Allowed (.call (admission 7) blank) :=
  allowed_call rfl (by decide +kernel) (by decide +kernel) (by decide +kernel)

theorem allowed_reservation :
    admittedStore.Allowed (.call (.reserveAppend ⟨0, 0⟩ 2 7) blank) :=
  allowed_call rfl (by decide +kernel) (by decide +kernel) (by decide +kernel)

/-- The rows that are written belong to the reservation. -/
theorem allowed_write : reservedStore.Allowed (.write filled) := by
  have hsegments : reservedStore.cache.pendingSegments ⟨0, 0⟩ = [⟨⟨0, 0⟩, 0, 0, 2⟩] := by
    decide +kernel
  have hstorage : (reservedStore.cache.pages.get? ⟨0, 0⟩).bind PageRecord.physical = some 0 := by
    decide +kernel
  intro storage row _ hdrafted
  apply if_neg
  rintro ⟨hpage, hrow⟩
  refine hdrafted ⟨⟨0, 0⟩, ⟨⟨0, 0⟩, 0, 0, 2⟩, ?_, ?_, ?_, ?_⟩
  · rw [hsegments]
    exact List.mem_singleton_self _
  · rw [hpage]
    exact hstorage
  · exact Nat.zero_le row
  · rw [Nat.zero_add]
    exact hrow

theorem allowed_commit : writtenStore.Allowed (.call committing filled) :=
  allowed_call rfl (by decide +kernel) (by decide +kernel) (by decide +kernel)

theorem reach_written : Reachable Store.step Store.Allowed blankStore writtenStore :=
  ((Reachable.start.step _ allowed_admission).step _ allowed_reservation).step _ allowed_write

end Reference

open Reference in
/-- What was written is what the commit adopts. -/
theorem contents_refined_committed :
    (Deed.call committing filled).Does writtenStore writtenStore.rows committedStore.rows ∧
      writtenStore.rows.accounts ⟨0, 0⟩ = some ⟨[], some [11, 12]⟩ ∧
        committedStore.rows.accounts ⟨0, 0⟩ = some ⟨[11, 12], none⟩ := by
  have hdraft : writtenStore.rows.accounts ⟨0, 0⟩ = some ⟨[], some [11, 12]⟩ := by decide +kernel
  have hrows : committedStore.rows.accounts ⟨0, 0⟩ = some ⟨[11, 12], none⟩ := by decide +kernel
  have hlaw : plain.Retires := plain_lawful.toRetires
  have hrefined := contents_refined hlaw new_start reach_written
  exact ⟨hrefined.2.2 _ allowed_commit, hdraft, hrows⟩

/-! ## Growth -/

/-- No call takes a row from a sequence or changes what is retained. -/
theorem HasEffect.extends {operation : Operation R} {result : Except (Failure R.Error) (Reply R)}
    {books books' : Books SequenceId PrefixEntryId Row}
    (h : HasEffect operation result books books') :
    books.Extends books' := by
  unfold HasEffect at h
  split at h
  · obtain ⟨rows, discarded, -, hnew, rfl⟩ := h
    exact Books.extends_enroll hnew discarded rows
  · obtain ⟨rows, discarded, -, hnew, rfl⟩ := h
    exact Books.extends_enroll hnew discarded rows
  · exact h.appends.extends
  · exact h.appends.extends
  · exact h.appends.extends
  · exact (Books.Each.appends (fun _ _ _ hreserves => hreserves.appends) h).extends
  · obtain ⟨count, -, -, heach⟩ := h
    exact (Books.Each.appends (fun _ _ _ hcommits => hcommits.appends) heach).extends
  · obtain ⟨count, -, -, heach⟩ := h
    exact (Books.Each.appends (fun _ _ _ hcommits => hcommits.appends) heach).extends
  · obtain ⟨rows, draft, discarded, -, hnew, rfl⟩ := h
    exact Books.extends_freeze hnew discarded rows
  · obtain ⟨-, rfl⟩ := h
    exact books.extends_discard _
  · obtain ⟨-, rfl⟩ := h
    exact books.extends_dismiss _
  · exact h ▸ .refl books

theorem Deed.Does.extends {deed : Deed R Row} {store : Store R Row}
    {books books' : Books SequenceId PrefixEntryId Row} (h : deed.Does store books books') :
    books.Extends books' := by
  cases deed with
  | call operation memory =>
      obtain ⟨middle, heffect, hdrafts⟩ := h
      exact heffect.extends.redrafted hdrafts
  | write memory => exact (Books.Extends.refl books).redrafted h

section Growth

variable [DecidableEq R.Page] {config : CacheConfig} {cache : SequenceCache R}
variable {memory : R.Page → ℕ → Row} {store later : Store R Row}

theorem Store.Sound.follows (h : store.Sound) (hlaw : R.Retires) (deed : Deed R Row) :
    Follows store.cache (Store.step deed store).cache := by
  obtain ⟨stray, hinv⟩ := h.inv
  cases deed with
  | call operation memory' => exact operation.follows hlaw hinv
  | write memory' => exact .refl _

theorem Store.Sound.reach_follows (h : store.Sound) (hlaw : R.Retires)
    (hreach : Reachable Store.step Store.Allowed store later) :
    Follows store.cache later.cache := by
  induction hreach with
  | start => exact .refl _
  | step deed hreach _ ih => exact ih.trans ((h.reach hlaw hreach).follows hlaw deed)

omit [DecidableEq R.Page] in
theorem Store.live_of_account {id : SequenceId} {account : Account Row}
    (h : store.rows.accounts id = some account) :
    ∃ record, store.cache.sequences.get? id = some record := by
  obtain ⟨cells, hcells, -⟩ := Option.map_eq_some_iff.mp h
  obtain ⟨record, hrecord, -⟩ := Option.map_eq_some_iff.mp hcells
  exact ⟨record, hrecord⟩

omit [DecidableEq R.Page] in
theorem Store.entry_of_frozen {id : PrefixEntryId} {rows : List Row}
    (h : store.rows.frozen id = some rows) : id ∈ store.cache.prefixes := by
  obtain ⟨cells, hcells, -⟩ := Option.map_eq_some_iff.mp h
  obtain ⟨entry, hentry, -⟩ := Option.map_eq_some_iff.mp hcells
  exact ExtTreeMap.mem_iff_isSome_getElem?.mpr (by rw [hentry]; rfl)

/-- Rows of a sequence only grow for as long as it lives, and rows of an entry stay. -/
theorem Store.Sound.extends (h : store.Sound) (hlaw : R.Retires)
    (hreach : Reachable Store.step Store.Allowed store later) : store.rows.Extends later.rows := by
  induction hreach with
  | start => exact .refl _
  | @step middle deed hreach hallowed ih =>
      have hmiddle := h.reach hlaw hreach
      have hfollows := h.reach_follows hlaw hreach
      have hstep := hmiddle.follows hlaw deed
      have hdoes := (hmiddle.does hlaw hallowed).extends
      constructor
      · intro id account account' haccount haccount'
        obtain ⟨record, hrecord⟩ := Store.live_of_account haccount
        obtain ⟨record', hrecord'⟩ := Store.live_of_account haccount'
        obtain ⟨between, hbetween⟩ | hexpired := hfollows.sequences.live_or_expired hrecord
        · obtain ⟨found, hfound, -⟩ := (Store.measured hmiddle.inv.choose_spec).sequence id between
            hbetween
          exact (ih.accounts id account found haccount hfound).trans
            (hdoes.accounts id found account' hfound haccount')
        · rw [(hstep.sequences.expired hexpired).get?] at hrecord'
          cases hrecord'
      · intro id rows rows' hrows hrows'
        have hlive := Store.entry_of_frozen hrows
        obtain hmem | hnext := hstep.prefixes id (Store.entry_of_frozen hrows')
        · obtain ⟨found, hfound, -⟩ := (Store.measured hmiddle.inv.choose_spec).entry id _
            (ExtTreeMap.getElem?_eq_some_getElem hmem)
          exact (hdoes.frozen id found rows' hfound hrows').trans
            (ih.frozen id rows found hrows hfound)
        · have hbelow := h.inv.choose_spec.ids_below id hlive
          exact absurd (hbelow.trans_le hfollows.nextPrefixId) hnext.not_gt

/-- Along every run a sequence keeps the rows it has, in order, for as long as it lives, and the
rows of a retained entry never change. -/
theorem rows_append_only (hlaw : R.Retires) (hnew : SequenceCache.new R config = .ok cache)
    (hreach : Reachable Store.step Store.Allowed ⟨cache, memory⟩ store)
    (hlater : Reachable Store.step Store.Allowed store later) :
    (∀ id record record' account account',
      store.cache.sequences.get? id = some record → later.cache.sequences.get? id = some record' →
      store.rows.accounts id = some account → later.rows.accounts id = some account' →
        record.position ≤ record'.position ∧
          account.rows = account'.rows.take record.position) ∧
    ∀ id rows rows', store.rows.frozen id = some rows → later.rows.frozen id = some rows' →
      rows' = rows := by
  have hsound := (Store.sound_of_new hnew memory).reach hlaw hreach
  have hextends := hsound.extends hlaw hlater
  refine ⟨fun id record record' account account' hrecord hrecord' haccount haccount' => ?_,
    hextends.frozen⟩
  have hrows := hextends.accounts id account account' haccount haccount'
  obtain ⟨found, hfound, hlength, -⟩ :=
    (Store.measured hsound.inv.choose_spec).sequence id record hrecord
  obtain ⟨found', hfound', hlength', -⟩ :=
    (Store.measured (hsound.reach hlaw hlater).inv.choose_spec).sequence id record' hrecord'
  obtain rfl := Option.some.inj (haccount.symm.trans hfound)
  obtain rfl := Option.some.inj (haccount'.symm.trans hfound')
  rw [← hlength, ← hlength']
  exact ⟨hrows.length_le, List.prefix_iff_eq_take.mp hrows⟩

end Growth

namespace Reference

/-- The two rows are retained under the tokens they were computed from. -/
def retention : Operation plain := .retainPrefix ⟨0, 0⟩ [1, 2] 4 7

def retainedStore : Store plain ℕ := Store.step (.call retention filled) committedStore

/-- A second sequence starts with the retained rows. -/
def reusing : Operation plain := .admitSequence (some ⟨0, 2, 1⟩) ⟨8, 0, 0, false⟩ 9
    fun _ _ => .ok ()

def reusingStore : Store plain ℕ := Store.step (.call reusing filled) retainedStore

theorem allowed_retention : committedStore.Allowed (.call retention filled) :=
  allowed_call rfl (by decide +kernel) (by decide +kernel) (by decide +kernel)

theorem allowed_reusing : retainedStore.Allowed (.call reusing filled) :=
  allowed_call rfl (by decide +kernel) (by decide +kernel) (by decide +kernel)

theorem reach_committed : Reachable Store.step Store.Allowed blankStore committedStore :=
  reach_written.step _ allowed_commit

end Reference

open Reference in
/-- The second sequence leaves the rows of the first one alone. -/
theorem rows_append_only_reusing :
    committedStore.rows.accounts ⟨0, 0⟩ = some ⟨[11, 12], none⟩ ∧
      ∀ account, reusingStore.rows.accounts ⟨0, 0⟩ = some account →
        [11, 12] = account.rows.take 2 := by
  have hrows : committedStore.rows.accounts ⟨0, 0⟩ = some ⟨[11, 12], none⟩ := by decide +kernel
  have hrecord : (committedStore.cache.sequences.get? ⟨0, 0⟩).map SequenceRecord.position =
      some 2 := by decide +kernel
  have hrecord' : (reusingStore.cache.sequences.get? ⟨0, 0⟩).isSome := by decide +kernel
  have hlaw : plain.Retires := plain_lawful.toRetires
  have hlater : Reachable Store.step Store.Allowed committedStore reusingStore :=
    (Reachable.start.step _ allowed_retention).step _ allowed_reusing
  have hreach := reach_committed
  generalize committedStore = store at *
  generalize reusingStore = later at *
  obtain ⟨record, hlive, hposition⟩ := Option.map_eq_some_iff.mp hrecord
  obtain ⟨record', hlive'⟩ := Option.isSome_iff_exists.mp hrecord'
  have honly := rows_append_only hlaw new_start hreach hlater
  refine ⟨hrows, fun account haccount => ?_⟩
  have htake := (honly.1 ⟨0, 0⟩ record record' _ account hlive hlive' hrows haccount).2
  rwa [hposition] at htake

/-! ## Reuse of prefixes -/

section Reuse

variable [DecidableEq R.Page] {config : CacheConfig} {cache : SequenceCache R}
variable {memory memory' : R.Page → ℕ → Row} {store later : Store R Row}
variable {computed : List Token → List Row}

omit [DecidableEq R.Page] in
/-- Who retains a prefix under some tokens has computed its rows from them. -/
def Store.Truthful (computed : List Token → List Row) (store : Store R Row) : Deed R Row → Prop
  | .call (.retainPrefix sequence tokens snapshot context) _ => ∀ id account,
      (Operation.retainPrefix sequence tokens snapshot context).result store.cache =
        .ok (.retained (.inserted id)) →
      store.rows.accounts sequence = some account →
        account.rows = computed (tokens.take account.rows.length)
  | _ => True

omit [DecidableEq R.Page] in
/-- Every entry has the rows of the tokens it is filed under. -/
def Store.Reusable (computed : List Token → List Row) (store : Store R Row) : Prop :=
  ∀ id text, Files store.cache id text → store.rows.frozen id = some (computed text)

theorem Store.Reusable.step (h : store.Reusable computed) (hsound : store.Sound)
    (hlaw : R.Retires) {deed : Deed R Row} (hallowed : store.Allowed deed)
    (htruthful : store.Truthful computed deed) : (Store.step deed store).Reusable computed := by
  intro id text hfiles
  obtain ⟨stray, hinv⟩ := hsound.inv
  have hdoes := hsound.does hlaw hallowed
  have hnext := (hsound.step hlaw hallowed).inv
  obtain ⟨rows, hrows⟩ : ∃ rows, (Store.step deed store).rows.frozen id = some rows := by
    obtain ⟨entry, hentry, -⟩ := hfiles
    obtain ⟨rows, hrows, -⟩ := (Store.measured hnext.choose_spec).entry id entry hentry
    exact ⟨rows, hrows⟩
  cases deed with
  | write memory' =>
      have hfrozen := h id text hfiles
      rw [hrows, hdoes.extends.frozen id _ rows hfrozen hrows]
  | call operation memory' =>
      obtain hold | hfiled := hfiles.step hlaw hinv
      · have hfrozen := h id text hold
        rw [hrows, hdoes.extends.frozen id _ rows hfrozen hrows]
      · cases operation with
        | retainPrefix sequence tokens snapshot context =>
            simp only [Operation.files] at hfiled
            split at hfiled
            case h_2 => exact absurd hfiled List.not_mem_nil
            rename_i inserted record hresult hrecord
            obtain ⟨rfl, rfl⟩ := Prod.mk.inj (List.mem_singleton.mp hfiled)
            obtain ⟨middle, heffect, hdrafts⟩ := hdoes
            rw [hresult] at heffect
            obtain ⟨kept, draft, discarded, haccount, -, rfl⟩ := heffect
            obtain ⟨account, hfound, hlength, -⟩ := (Store.measured hinv).sequence _ _ hrecord
            obtain rfl := Option.some.inj (haccount.symm.trans hfound)
            have hcomputed := htruthful _ _ hresult haccount
            rw [hdrafts.frozen, Books.frozen_freeze_self, ← hlength]
            exact congrArg some hcomputed
        | _ => exact absurd hfiled List.not_mem_nil

theorem reusable_of_reach (hlaw : R.Retires) (hnew : SequenceCache.new R config = .ok cache)
    (hreach : Reachable Store.step
      (fun store deed => store.Allowed deed ∧ store.Truthful computed deed)
      ⟨cache, memory⟩ store) : store.Sound ∧ store.Reusable computed := by
  induction hreach with
  | start =>
      refine ⟨Store.sound_of_new hnew memory, ?_⟩
      obtain ⟨-, rfl⟩ := new_eq_ok.mp hnew
      rintro id text ⟨entry, hentry, -⟩
      cases hentry
  | step deed _ hallowed ih =>
      exact ⟨ih.1.step hlaw hallowed.1, ih.2.step ih.1 hlaw hallowed.1 hallowed.2⟩

/-- A prefix that is found under some tokens has the rows that were computed for them, for as
long as it can be admitted. -/
theorem prefix_reuse (hlaw : R.Retires) (hnew : SequenceCache.new R config = .ok cache)
    (hreach : Reachable Store.step
      (fun store deed => store.Allowed deed ∧ store.Truthful computed deed) ⟨cache, memory⟩ store)
    {tokens : List Token} {found : PrefixMatch}
    (hfound : (Operation.lookupPrefix tokens).result store.cache = .ok (.found (some found)))
    (hlater : Reachable Store.step Store.Allowed store later) {request : AdmissionRequest}
    {context : R.Context} {restore : Option R.Snapshot → ℕ → Except R.Error Unit}
    (hallowed : later.Allowed
      (.call (.admitSequence (some found) request context restore) memory')) {id : SequenceId}
    (hadmitted : (Operation.admitSequence (some found) request context restore).result
      later.cache = .ok (.admission (.admitted id))) :
    0 < found.position ∧ found.position < tokens.length ∧
      (Store.step (.call (.admitSequence (some found) request context restore) memory')
        later).rows.accounts id = some ⟨computed (tokens.take found.position), none⟩ := by
  obtain ⟨hsound, hreusable⟩ := reusable_of_reach hlaw hnew hreach
  obtain ⟨stray, hinv⟩ := hsound.inv
  obtain ⟨result, cache', hrun, -, hreply⟩ := Operation.result_eq_ok rfl hfound
  cases hreply
  have hspec := lookupPrefix_spec hinv tokens
  rw [hrun] at hspec
  obtain ⟨text, hlongest, hposition, -⟩ := ((findPrefix_exact hinv (fun _ _ => Iff.rfl)
    hspec.2).1 found).mp rfl
  have hfrozen := hreusable _ _ hlongest.kept
  have hshort : found.position ≤ store.cache.cacheablePrefixTokens tokens.length := by
    rw [hposition]
    exact hlongest.isPrefix.length_le.trans (List.length_take_le _ _)
  have htext : tokens.take found.position = text := by
    rw [hposition]
    exact (List.prefix_iff_eq_take.mp (hlongest.isPrefix.trans (List.take_prefix _ _))).symm
  have hpositive : 0 < found.position := by
    obtain ⟨entry, hentry, rfl⟩ := hlongest.kept
    rw [hposition, (length_textOf_entry hinv hentry).1]
    exact Nat.pos_of_ne_zero (hinv.owned.entry _ entry hentry).position_ne
  have hcacheable : store.cache.cacheablePrefixTokens tokens.length ≤ tokens.length - 1 :=
    Nat.div_mul_le_self _ _
  refine ⟨hpositive, by omega, ?_⟩
  have hend := hsound.reach hlaw hlater
  obtain ⟨middle, heffect, hdrafts⟩ := hend.does hlaw hallowed
  rw [hadmitted] at heffect
  obtain ⟨rows, discarded, hstarts, -, rfl⟩ := heffect
  have hrows := (hsound.extends hlaw hlater).frozen _ _ _ hfrozen hstarts
  have houtline := hdrafts.accounts id
  rw [Books.accounts_enroll_self, Option.map_some] at houtline
  obtain ⟨account, haccount, hsame⟩ := Option.map_eq_some_iff.mp houtline
  rw [haccount, htext, ← hrows]
  obtain ⟨hkept, hdraft⟩ := Prod.mk.inj hsame
  exact congrArg some (Account.ext hkept (Option.map_eq_none_iff.mp hdraft))

end Reuse

namespace Reference

/-- Rows that are computed from one token each. -/
def tenMore (tokens : List Token) : List ℕ := tokens.map fun token => 10 + token.toNat

/-- The match and the sequence that a call reports. -/
def findings : Except (Failure plain.Error) (Reply plain) → Option PrefixMatch × Option SequenceId
  | .ok (.found found) => (found, none)
  | .ok (.admission (.admitted id)) => (none, some id)
  | _ => (none, none)

theorem eq_found {result : Except (Failure plain.Error) (Reply plain)} {found : PrefixMatch}
    (h : (findings result).1 = some found) : result = .ok (.found (some found)) := by
  unfold findings at h
  split at h
  · exact congrArg (fun found => Except.ok (Reply.found found)) h
  · cases h
  · cases h

theorem eq_admitted {result : Except (Failure plain.Error) (Reply plain)} {id : SequenceId}
    (h : (findings result).2 = some id) : result = .ok (.admission (.admitted id)) := by
  unfold findings at h
  split at h
  · cases h
  · rw [Option.some.inj h]
  · cases h

theorem truthful_retention : committedStore.Truthful tenMore (.call retention filled) := by
  have hrows : committedStore.rows.accounts ⟨0, 0⟩ = some ⟨[11, 12], none⟩ := by decide +kernel
  intro id account _ haccount
  rw [Option.some.inj (haccount.symm.trans hrows)]
  decide

theorem reach_truthful : Reachable Store.step
    (fun store deed => store.Allowed deed ∧ store.Truthful tenMore deed) blankStore
      retainedStore :=
  ((((Reachable.start.step _ ⟨allowed_admission, trivial⟩).step _
    ⟨allowed_reservation, trivial⟩).step _ ⟨allowed_write, trivial⟩).step _
      ⟨allowed_commit, trivial⟩).step _ ⟨allowed_retention, truthful_retention⟩

end Reference

open Reference in
/-- The rows found under the first two tokens are theirs. -/
theorem prefix_reuse_reusing :
    0 < 2 ∧ 2 < [1, 2, 3].length ∧
      reusingStore.rows.accounts ⟨1, 0⟩ = some ⟨tenMore [1, 2], none⟩ := by
  have hfound : (Operation.lookupPrefix [1, 2, 3]).result retainedStore.cache =
      .ok (.found (some ⟨0, 2, 1⟩)) := eq_found (by decide +kernel)
  have hadmitted : reusing.result retainedStore.cache = .ok (.admission (.admitted ⟨1, 0⟩)) :=
    eq_admitted (by decide +kernel)
  have hlaw : plain.Retires := plain_lawful.toRetires
  have hreach := reach_truthful
  have hallowed := allowed_reusing
  rw [reusingStore]
  generalize retainedStore = store at *
  exact prefix_reuse hlaw new_start hreach hfound .start hallowed hadmitted

end SeqCache
