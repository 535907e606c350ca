import SeqCache.Run.Transition

/-!
# What only grows

Slots move forward, identities and nonces are issued in increasing order, and a sequence
whose append is pending now either was in the same state before or its append has a newer
nonce.  These facts hold
between any two states of a run, whatever was called in between.
-/

namespace SeqCache

open Machine Program Std

variable {R : Runtime}

namespace SequenceCache

/-- `cache'` comes after `cache` in a run. -/
structure Follows (cache cache' : SequenceCache R) : Prop where
  config : cache'.config = cache.config
  pages : Arena.Advances cache.pages cache'.pages
  sequences : Arena.Advances cache.sequences cache'.sequences
  nextPrefixId : cache.nextPrefixId ≤ cache'.nextPrefixId
  appendNonce : cache.appendNonce ≤ cache'.appendNonce
  prefixes : ∀ id ∈ cache'.prefixes, id ∈ cache.prefixes ∨ cache.nextPrefixId ≤ id
  pending : ∀ sequence record' pending', cache'.sequences.get? sequence = some record' →
    record'.pending = some pending' → cache.appendNonce ≤ pending'.nonce ∨
      ∃ record change, cache.sequences.get? sequence = some record ∧
        record' = record.mapTransaction change

namespace Follows

variable {cache cache' cache'' : SequenceCache R}

theorem refl (cache : SequenceCache R) : Follows cache cache where
  config := rfl
  pages := .refl _
  sequences := .refl _
  nextPrefixId := le_rfl
  appendNonce := le_rfl
  prefixes := fun _ hmem => Or.inl hmem
  pending := fun _ record _ hrecord _ =>
    Or.inr ⟨record, id, hrecord, record.mapTransaction_id.symm⟩

theorem trans (h : Follows cache cache') (h' : Follows cache' cache'') : Follows cache cache'' where
  config := h'.config.trans h.config
  pages := h.pages.trans h'.pages
  sequences := h.sequences.trans h'.sequences
  nextPrefixId := h.nextPrefixId.trans h'.nextPrefixId
  appendNonce := h.appendNonce.trans h'.appendNonce
  prefixes := by
    intro id hmem
    rcases h'.prefixes id hmem with hmem | hle
    · exact h.prefixes id hmem
    · exact Or.inr (h.nextPrefixId.trans hle)
  pending := by
    intro sequence record'' pending'' hrecord'' hpending''
    rcases h'.pending sequence record'' pending'' hrecord'' hpending'' with
      hle | ⟨record', change', hrecord', rfl⟩
    · exact Or.inl (h.appendNonce.trans hle)
    · obtain ⟨pending', hpending', rfl⟩ := Option.map_eq_some_iff.mp hpending''
      rcases h.pending sequence record' pending' hrecord' hpending' with
        hle | ⟨record, change, hrecord, rfl⟩
      · exact Or.inl hle
      · exact Or.inr ⟨record, change' ∘ change, hrecord, record.mapTransaction_comp change change'⟩

/-- A change that leaves the sequences, the entries and the counters alone. -/
theorem ofPages (hconfig : cache'.config = cache.config)
    (hpages : Arena.Advances cache.pages cache'.pages)
    (hsequences : cache'.sequences = cache.sequences)
    (hnext : cache'.nextPrefixId = cache.nextPrefixId)
    (hnonce : cache'.appendNonce = cache.appendNonce)
    (hprefixes : ∀ id ∈ cache'.prefixes, id ∈ cache.prefixes) : Follows cache cache' where
  config := hconfig
  pages := hpages
  sequences := hsequences ▸ .refl _
  nextPrefixId := hnext.ge
  appendNonce := hnonce.ge
  prefixes := fun id hmem => Or.inl (hprefixes id hmem)
  pending := by
    intro sequence record pending hrecord hpending
    rw [hsequences] at hrecord
    exact Or.inr ⟨record, id, hrecord, record.mapTransaction_id.symm⟩

theorem ofQuiet (h : Quiet cache cache') : Follows cache cache' := by
  obtain ⟨change, hchange⟩ := h.sequences
  refine ⟨h.config, h.pages ▸ .refl _, .ofUpdated hchange, h.nextPrefixId.ge, h.nonce_le, ?_, ?_⟩
  · intro id hmem
    rw [h.prefixes] at hmem
    exact Or.inl hmem
  · intro sequence record' pending' hrecord' hpending'
    rw [hchange.get?] at hrecord'
    obtain ⟨record, hrecord, rfl⟩ := Option.map_eq_some_iff.mp hrecord'
    exact Or.inr ⟨record, change sequence, hrecord, rfl⟩

/-- Writing one sequence: every other record stays, and the new one has no pending append
or a new nonce. -/
theorem ofSequence (sequence : SequenceId) (record : SequenceRecord R.AppendTransaction)
    (hconfig : cache'.config = cache.config)
    (hpages : Arena.Advances cache.pages cache'.pages)
    (hsequences : Arena.Advances cache.sequences cache'.sequences)
    (hget : ∀ other, other ≠ sequence →
      cache'.sequences.get? other = cache.sequences.get? other)
    (hself : ∀ found, cache'.sequences.get? sequence = some found → found = record)
    (hrecord : ∀ pending, record.pending = some pending → cache.appendNonce ≤ pending.nonce)
    (hnext : cache'.nextPrefixId = cache.nextPrefixId)
    (hnonce : cache.appendNonce ≤ cache'.appendNonce)
    (hprefixes : cache'.prefixes = cache.prefixes) : Follows cache cache' := by
  refine ⟨hconfig, hpages, hsequences, hnext.ge, hnonce, ?_, ?_⟩
  · intro id hmem
    rw [hprefixes] at hmem
    exact Or.inl hmem
  · intro other found pending hfound hpending
    by_cases heq : other = sequence
    · subst heq
      rw [hself found hfound] at hpending
      exact Or.inl (hrecord pending hpending)
    · rw [hget other heq] at hfound
      exact Or.inr ⟨found, id, hfound, found.mapTransaction_id.symm⟩

end Follows

/-! ## Every change moves forward -/

section Records

variable {cache cache' : SequenceCache R} {sequence : SequenceId}
variable {record : SequenceRecord R.AppendTransaction}

theorem Admitted.follows {shared fresh : List PageId} {physical : List R.Page}
    (h : Admitted cache cache' shared fresh physical sequence record) : Follows cache cache' := by
  have hstate := h.state
  refine .ofSequence sequence record (by rw [hstate]; rfl) h.pages.advances h.advances
    (fun other hne => ?_) (fun found hfound => ?_) (fun pending hpending => ?_)
    (by rw [hstate]; rfl) (by rw [hstate]; exact le_rfl) (by rw [hstate]; rfl)
  · rw [h.sequences, if_neg hne]
  · rw [h.sequences, if_pos rfl] at hfound
    exact (Option.some.inj hfound).symm
  · rw [h.pending] at hpending
    cases hpending

/-- Overwriting the record of one sequence. -/
theorem Follows.ofSet {updated : SequenceRecord R.AppendTransaction}
    (hlive : cache.sequences.get? sequence = some record)
    (hsequences : cache'.sequences = cache.sequences.set sequence updated)
    (hconfig : cache'.config = cache.config)
    (hpages : Arena.Advances cache.pages cache'.pages)
    (hrecord : ∀ pending, updated.pending = some pending → cache.appendNonce ≤ pending.nonce)
    (hnext : cache'.nextPrefixId = cache.nextPrefixId)
    (hnonce : cache.appendNonce ≤ cache'.appendNonce)
    (hprefixes : cache'.prefixes = cache.prefixes) : Follows cache cache' := by
  refine .ofSequence sequence updated hconfig hpages (hsequences ▸ .set hlive)
    (fun other hne => ?_) (fun found hfound => ?_) hrecord hnext hnonce hprefixes
  · rw [hsequences, Arena.get?_set hlive, if_neg hne]
  · rw [hsequences, Arena.get?_set hlive, if_pos rfl] at hfound
    exact (Option.some.inj hfound).symm

theorem Reserved.follows {rows : ℕ} {context : R.Context} {transaction : R.AppendTransaction}
    {fresh : List PageId} {allocations : List R.Page} {prepared : R.History}
    (h : Reserved cache cache' sequence record rows context transaction fresh allocations
      prepared) : Follows cache cache' := by
  have hstate := h.state
  refine .ofSet h.live (congrArg SequenceCache.sequences hstate) (by rw [hstate]; rfl)
    h.pages.advances (fun pending hpending => ?_) (by rw [hstate]; rfl)
    (by rw [hstate]; exact Nat.le_succ _) (by rw [hstate]; rfl)
  rw [← Option.some.inj hpending]

section Finalize

variable {pending : PendingAppend R.AppendTransaction} {committed : ℕ} {event : R.Event}

theorem Settled.follows (h : Settled cache cache' sequence record pending committed event) :
    Follows cache cache' := by
  have hstate := h.state
  refine .ofSet h.live (congrArg SequenceCache.sequences hstate) (by rw [hstate]; rfl)
    h.advances (fun pending hpending => ?_) (by rw [hstate]; rfl) (by rw [hstate]; exact le_rfl)
    (by rw [hstate]; rfl)
  cases hpending

theorem Torn.follows {before after : List PageId} {last : PageId}
    (h : Torn cache cache' sequence record pending committed event before last after) :
    Follows cache cache' := by
  have hstate := h.state
  refine .ofSet h.live (congrArg SequenceCache.sequences hstate) (by rw [hstate]; rfl)
    h.advances (fun pending hpending => ?_) (by rw [hstate]; rfl) (by rw [hstate]; exact le_rfl)
    (by rw [hstate]; rfl)
  cases hpending

theorem Interrupted.follows {reservation : AppendReservation} {context : R.Context}
    {lost : List PageId} (h : Interrupted cache reservation committed context lost cache') :
    Follows cache cache' := by
  obtain ⟨_, _, _, _, _, _, _, _, htorn, _⟩ := h
  exact htorn.follows

end Finalize

theorem Finished.follows {context : R.Context} {physical : List R.Page} {deferred : ℕ}
    (h : Finished cache cache' sequence record context physical deferred) :
    Follows cache cache' := by
  have hstate := h.state
  have hsequences := congrArg SequenceCache.sequences hstate
  have hget : ∀ other, cache'.sequences.get? other =
      if other = sequence then none else cache.sequences.get? other := by
    intro other
    rw [hsequences]
    exact Arena.get?_release h.live
  refine .ofSequence sequence record (by rw [hstate]; rfl) h.advances (hsequences ▸ .release _ _)
    (fun other hne => ?_) (fun found hfound => ?_) (fun pending hpending => ?_)
    (by rw [hstate]; rfl) (by rw [hstate]; exact le_rfl) (by rw [hstate]; rfl)
  · rw [hget, if_neg hne]
  · rw [hget, if_pos rfl] at hfound
    cases hfound
  · rw [h.idle] at hpending
    cases hpending

theorem Evicted.follows {entries : List PrefixEntryId} {context : R.Context}
    {retired : List PageId} {physical : List R.Page} {deferred : ℕ}
    (h : Evicted cache cache' entries context retired physical deferred) :
    Follows cache cache' := by
  refine .ofPages h.config h.advances h.sequences h.nextPrefixId h.appendNonce fun id hmem => ?_
  rw [h.prefixes, ExtTreeMap.mem_iff_isSome_getElem?, getElem?_eraseAll] at hmem
  split_ifs at hmem
  · cases hmem
  · exact ExtTreeMap.mem_iff_isSome_getElem?.mpr hmem

theorem Touched.mem_iff {used : Option PrefixEntryId} (h : Touched cache cache' used)
    (id : PrefixEntryId) : id ∈ cache'.prefixes ↔ id ∈ cache.prefixes := by
  rw [ExtTreeMap.mem_iff_isSome_getElem?, ExtTreeMap.mem_iff_isSome_getElem?,
    ← Option.isSome_map (f := PrefixEntry.untimed), h.retimed id, Option.isSome_map]

theorem Touched.follows {used : Option PrefixEntryId} (h : Touched cache cache' used) :
    Follows cache cache' := by
  have hstate := h.state
  exact .ofPages (by rw [hstate]) (by rw [hstate]; exact .refl _) (by rw [hstate]) (by rw [hstate])
    (by rw [hstate]) fun id hmem => (h.mem_iff id).mp hmem

theorem Retained.follows {blocks : List TokenBlockId} {snapshot : R.Snapshot}
    (h : Retained cache cache' sequence record blocks snapshot) : Follows cache cache' := by
  have hstate := h.state
  have hsequences : cache'.sequences = cache.sequences := by rw [hstate]; rfl
  refine ⟨by rw [hstate]; rfl, .ofUpdated h.pages, hsequences ▸ .refl _,
    by rw [hstate]; exact Nat.le_succ _, by rw [hstate]; exact le_rfl, ?_, ?_⟩
  · intro id hmem
    obtain ⟨retimed, hretimed, hprefixes⟩ := h.prefixes
    rw [hprefixes, ExtTreeMap.mem_insert, Std.compare_eq_iff_eq] at hmem
    rcases hmem with heq | hmem
    · exact Or.inr heq.le
    · left
      rw [ExtTreeMap.mem_iff_isSome_getElem?, ← Option.isSome_map (f := PrefixEntry.untimed),
        ← hretimed id, Option.isSome_map]
      exact ExtTreeMap.mem_iff_isSome_getElem?.mp hmem
  · intro sequence record pending hrecord hpending
    rw [hsequences] at hrecord
    exact Or.inr ⟨record, id, hrecord, record.mapTransaction_id.symm⟩

end Records

section Changes

variable {orphans : List PageId} {stray : List TokenBlockId} {strays : Prop}
    {uses : SequenceId → R.Context → Prop}
variable {opens : R.Context → Prop} {cache cache' : SequenceCache R}

theorem Change.follows (h : Change orphans uses opens cache cache') : Follows cache cache' := by
  cases h with
  | quiet hquiet _ => exact .ofQuiet hquiet
  | interned hinterns =>
      rw [hinterns.state]
      exact .ofPages rfl (.refl _) rfl rfl rfl fun _ hmem => hmem
  | published _ => exact .ofPages rfl (.refl _) rfl rfl rfl fun _ hmem => hmem
  | evicted _ hevicted => exact hevicted.follows
  | reclaimed _ hreclaimed =>
      rw [hreclaimed.state]
      exact .ofPages rfl (.refl _) rfl rfl rfl fun _ hmem => hmem
  | admitted _ hadmitted => exact hadmitted.follows
  | reserved _ _ hreserved => exact hreserved.follows
  | settled _ _ _ hsettled => exact hsettled.follows
  | finished _ hfinished => exact hfinished.follows

theorem Progress.follows (h : Progress orphans uses opens cache cache') :
    Follows cache cache' := by
  induction h with
  | refl => exact .refl cache
  | tail _ hchange ih => exact ih.trans hchange.follows

theorem Evolves.follows {result : Except (Failure R.Error) (Reply R)}
    (h : Evolves orphans stray strays uses opens cache result cache') : Follows cache cache' := by
  cases h with
  | progressed hprogress => exact hprogress.follows
  | touched htouched => exact htouched.follows
  | retained hprogress hretained => exact hprogress.follows.trans hretained.follows
  | torn hprogress _ _ hinterrupted => exact hprogress.follows.trans hinterrupted.follows

end Changes

end SequenceCache

end SeqCache
