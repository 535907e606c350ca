import SeqCache.Core.Traces
import SeqCache.Index.Text
import SeqCache.Run.Reachable

/-!
# The prefix index along runs

The index only knows blocks.  What a client relies on is stated in terms of token lists: a
retained entry is found under the tokens it was inserted for, and the longest such list that a
query starts with wins.  Identities of blocks are never issued twice, so an entry keeps its
tokens for as long as it is retained, whatever is interned and collected around it.
-/

namespace SeqCache

open Machine Program Std

variable {R : Runtime}

/-! ## Blocks keep their tokens -/

namespace PrefixIndex

/-- `index'` comes after `index` in a run. -/
structure Since (index index' : PrefixIndex R) : Prop where
  next_le : index.nextBlockId ≤ index'.nextBlockId
  tokens : ∀ block tokens, index'.tokensOf block = some tokens →
    index.tokensOf block = some tokens ∨ index.nextBlockId ≤ block

namespace Since

variable {index index' index'' : PrefixIndex R}

theorem refl (index : PrefixIndex R) : Since index index := ⟨le_rfl, fun _ _ h => Or.inl h⟩

theorem trans (h : Since index index') (h' : Since index' index'') : Since index index'' := by
  refine ⟨h.next_le.trans h'.next_le, fun block tokens htokens => ?_⟩
  obtain hmiddle | hnew := h'.tokens block tokens htokens
  · exact h.tokens block tokens hmiddle
  · exact Or.inr (h.next_le.trans hnew)

theorem ofBlocks (hnext : index.nextBlockId ≤ index'.nextBlockId)
    (hblocks : index'.blocks = index.blocks) : Since index index' := by
  refine ⟨hnext, fun block tokens htokens => Or.inl ?_⟩
  rwa [tokensOf, hblocks] at htokens

end Since

end PrefixIndex

namespace SequenceCache

section Since

variable {orphans : List PageId} {stray : List TokenBlockId} {strays : Prop}
variable {uses : SequenceId → R.Context → Prop} {opens : R.Context → Prop}
variable {cache cache' : SequenceCache R}

private theorem since_of_eq (h : cache'.index = cache.index) : cache.index.Since cache'.index :=
  h ▸ .refl _

theorem Change.since (h : Change orphans uses opens cache cache') :
    cache.index.Since cache'.index := by
  cases h with
  | quiet hquiet _ => exact .ofBlocks hquiet.next_le hquiet.blocks
  | interned h =>
      refine ⟨h.table.next, fun block tokens htokens => ?_⟩
      cases hold : cache.index.tokensOf block with
      | none => exact Or.inr (h.table.new block tokens htokens hold)
      | some before => exact Or.inl ((h.table.tokens block before hold).symm.trans htokens)
  | published _ => exact .refl _
  | evicted _ h => exact ⟨h.next.ge, fun block tokens htokens => Or.inl (h.tokens _ _ htokens)⟩
  | reclaimed _ h => exact since_of_eq (congrArg SequenceCache.index h.state :)
  | admitted _ h _ _ _ => exact since_of_eq (congrArg SequenceCache.index h.state :)
  | reserved _ _ h => exact since_of_eq (congrArg SequenceCache.index h.state :)
  | settled _ _ _ h => exact since_of_eq (congrArg SequenceCache.index h.state :)
  | finished _ h => exact since_of_eq (congrArg SequenceCache.index h.state :)

theorem Progress.since (h : Progress orphans uses opens cache cache') :
    cache.index.Since cache'.index := by
  induction h with
  | refl => exact .refl _
  | tail _ hchange ih => exact ih.trans hchange.since

theorem Retained.since {sequence : SequenceId} {record : SequenceRecord R.AppendTransaction}
    {blocks : List TokenBlockId} {snapshot : R.Snapshot}
    (h : Retained cache cache' sequence record blocks snapshot) :
    cache.index.Since cache'.index := by
  rw [h.state]
  exact .ofBlocks le_rfl rfl

theorem Evolves.since {result : Except (Failure R.Error) (Reply R)}
    (h : Evolves orphans stray strays uses opens cache result cache') :
    cache.index.Since cache'.index := by
  cases h with
  | progressed hprogress _ _ _ => exact hprogress.since
  | touched htouched _ => exact since_of_eq (congrArg SequenceCache.index htouched.state :)
  | retained hprogress hretained _ _ _ => exact hprogress.since.trans hretained.since
  | torn hprogress _ _ htorn _ _ _ =>
      obtain ⟨record, pending, event, before, last, after, -, -, htorn, -⟩ := htorn
      exact hprogress.since.trans (since_of_eq (congrArg SequenceCache.index htorn.state :))

end Since

/-! ## Entries and their tokens -/

section Files

variable {orphans : List PageId} {stray : List TokenBlockId} {cache cache' : SequenceCache R}
variable {id : PrefixEntryId} {text : List Token}

/-- The entry is retained and filed under the blocks of the tokens. -/
def Files (cache : SequenceCache R) (id : PrefixEntryId) (text : List Token) : Prop :=
  ∃ entry, cache.prefixes[id]? = some entry ∧ cache.index.textOf entry.blocks = text

theorem known_blocks (hinv : Inv orphans stray cache) {entry : PrefixEntry R.Snapshot}
    (hentry : cache.prefixes[id]? = some entry) : cache.index.Known entry.blocks :=
  fun _ hmem => hinv.filed.held_of_mem hentry hmem

theorem Files.unique {text' : List Token} (h : Files cache id text) (h' : Files cache id text') :
    text' = text := by
  obtain ⟨entry, hentry, rfl⟩ := h
  obtain ⟨entry', hentry', rfl⟩ := h'
  rw [hentry, Option.some_inj] at hentry'
  rw [hentry']

/-- No two entries are filed under the same tokens. -/
theorem Files.injective (hinv : Inv orphans stray cache) {other : PrefixEntryId}
    (h : Files cache id text) (h' : Files cache other text) : id = other := by
  obtain ⟨entry, hentry, hsame⟩ := h
  obtain ⟨found, hfound, rfl⟩ := h'
  have hblocks := PrefixIndex.textOf_injective hinv.filed.table hinv.config.pageTokens_pos
    (known_blocks hinv hentry) (known_blocks hinv hfound) hsame
  have hkey : found.key = entry.key := by
    rw [hinv.filed.key_eq other found hfound, hinv.filed.key_eq id entry hentry, hblocks]
  have hleft := (hinv.filed.tree entry.key id).mpr ⟨entry, hentry, rfl⟩
  have hright := (hinv.filed.tree entry.key other).mpr ⟨found, hfound, hkey⟩
  exact Option.some.inj (hleft.symm.trans hright)

/-- The tokens of an entry cover its pages. -/
theorem length_textOf_entry (hinv : Inv orphans stray cache) {entry : PrefixEntry R.Snapshot}
    (hentry : cache.prefixes[id]? = some entry) :
    (cache.index.textOf entry.blocks).length = entry.position ∧
      entry.pages.length * cache.config.pageTokens = entry.position := by
  have hposition := (hinv.owned.entry id entry hentry).position_eq
  refine ⟨?_, hposition⟩
  rw [PrefixIndex.length_textOf hinv.filed.table (known_blocks hinv hentry),
    hinv.filed.length_blocks id entry hentry, hposition]

end Files

/-! ## The longest prefix -/

/-- The tokens of the entry are the longest with which the query starts. -/
structure LongestIn (keeps : PrefixEntryId → List Token → Prop) (query : List Token)
    (id : PrefixEntryId) (text : List Token) : Prop where
  kept : keeps id text
  isPrefix : text <+: query
  longest : ∀ other text', keeps other text' → text' <+: query → text'.length ≤ text.length

/-- Of the tokens with which a query starts, some are the longest. -/
theorem LongestIn.exists {keeps : PrefixEntryId → List Token → Prop} {query text : List Token}
    {id : PrefixEntryId} (hkeeps : keeps id text) (hstarts : text <+: query) :
    ∃ other text', LongestIn keeps query other text' := by
  classical
  let reached : ℕ → Prop := fun length =>
    ∃ other text', keeps other text' ∧ text' <+: query ∧ text'.length = length
  obtain ⟨other, text', hkeeps', hstarts', hlength⟩ :
      reached (Nat.findGreatest reached query.length) :=
    Nat.findGreatest_spec hstarts.length_le ⟨id, text, hkeeps, hstarts, rfl⟩
  refine ⟨other, text', hkeeps', hstarts', fun third text'' hthird hshort => ?_⟩
  rw [hlength]
  exact Nat.le_findGreatest hshort.length_le ⟨third, text'', hthird, hshort, rfl⟩

section Find

variable {orphans : List PageId} {stray : List TokenBlockId} {cache cache' : SequenceCache R}
variable {id : PrefixEntryId} {query tokens : List Token}

/-- The key of the blocks of a query that are interned. -/
def queryKey (cache : SequenceCache R) (query : List Token) : PrefixKey :=
  keyOf (cache.index.knownBlocks (chunksExact cache.config.pageTokens query))

theorem lookupKey_eq (cache : SequenceCache R) (query : List Token) :
    cache.index.lookupKey query cache.config.pageTokens =
      if (cache.queryKey query).isEmpty then none else some (cache.queryKey query) := rfl

theorem isPrefix_queryKey (hinv : Inv orphans stray cache) {entry : PrefixEntry R.Snapshot}
    (hentry : cache.prefixes[id]? = some entry) :
    entry.key <+: cache.queryKey query ↔ cache.index.textOf entry.blocks <+: query := by
  rw [hinv.filed.key_eq id entry hentry]
  exact PrefixIndex.isPrefix_lookupKey hinv.filed.table hinv.config.pageTokens_pos
    (known_blocks hinv hentry)

theorem length_key_le (hinv : Inv orphans stray cache) {other : PrefixEntryId}
    {entry found : PrefixEntry R.Snapshot} (hentry : cache.prefixes[id]? = some entry)
    (hfound : cache.prefixes[other]? = some found) :
    found.key.length ≤ entry.key.length ↔
      (cache.index.textOf found.blocks).length ≤ (cache.index.textOf entry.blocks).length := by
  rw [hinv.filed.key_eq id entry hentry, hinv.filed.key_eq other found hfound, length_keyOf,
    length_keyOf, PrefixIndex.length_textOf hinv.filed.table (known_blocks hinv hentry),
    PrefixIndex.length_textOf hinv.filed.table (known_blocks hinv hfound),
    Nat.mul_le_mul_left_iff (by decide), Nat.mul_le_mul_right_iff hinv.config.pageTokens_pos]

/-- The tree finds the entry with the longest tokens that the query starts with. -/
theorem longest_eq_some (hinv : Inv orphans stray cache) :
    cache.index.longest (cache.queryKey query) = some id ↔
      ∃ text, LongestIn (Files cache) query id text := by
  rw [PrefixIndex.longest, R.longestPrefixValueBytes_eq_some]
  constructor
  · rintro ⟨key, hstarts, hget, hlongest⟩
    obtain ⟨entry, hentry, rfl⟩ := (hinv.filed.tree key id).mp hget
    refine ⟨_, ⟨entry, hentry, rfl⟩, (isPrefix_queryKey hinv hentry).mp hstarts, ?_⟩
    rintro other _ ⟨found, hfound, rfl⟩ hother
    refine (length_key_le hinv hentry hfound).mp (hlongest found.key
      ((isPrefix_queryKey hinv hfound).mpr hother) ?_)
    rw [(hinv.filed.tree found.key other).mpr ⟨found, hfound, rfl⟩]
    rfl
  · rintro ⟨_, ⟨entry, hentry, rfl⟩, hstarts, hlongest⟩
    refine ⟨entry.key, (isPrefix_queryKey hinv hentry).mpr hstarts,
      (hinv.filed.tree entry.key id).mpr ⟨entry, hentry, rfl⟩, fun key hkey hsome => ?_⟩
    obtain ⟨other, hother⟩ := Option.isSome_iff_exists.mp hsome
    obtain ⟨found, hfound, rfl⟩ := (hinv.filed.tree key other).mp hother
    exact (length_key_le hinv hentry hfound).mpr (hlongest other _ ⟨found, hfound, rfl⟩
      ((isPrefix_queryKey hinv hfound).mp hkey))

/-- No entry has an empty key. -/
theorem longest_nil (hinv : Inv orphans stray cache) : cache.index.longest [] = none := by
  rw [Option.eq_none_iff_forall_ne_some]
  intro id hfound
  obtain ⟨key, hstarts, hget, -⟩ := (R.longestPrefixValueBytes_eq_some _ _ _).mp hfound
  obtain ⟨entry, hentry, rfl⟩ := (hinv.filed.tree key id).mp hget
  have hlength := congrArg List.length (List.prefix_nil.mp hstarts)
  rw [hinv.filed.key_eq id entry hentry, length_keyOf, hinv.filed.length_blocks id entry hentry,
    List.length_nil] at hlength
  have hposition := (hinv.owned.entry id entry hentry).position_eq
  rw [(Nat.mul_eq_zero.mp hlength).resolve_left (by decide), Nat.zero_mul] at hposition
  exact (hinv.owned.entry id entry hentry).position_ne hposition.symm

theorem findPrefix_eq_longest (hinv : Inv orphans stray cache) :
    cache.findPrefix tokens = cache.index.longest
      (cache.queryKey (tokens.take (cache.cacheablePrefixTokens tokens.length))) := by
  rw [findPrefix]
  by_cases hzero : cache.cacheablePrefixTokens tokens.length = 0
  · have hquery : cache.queryKey [] = [] := by
      rw [queryKey, chunksExact_of_lt hinv.config.pageTokens_pos]
      rfl
    rw [hzero, List.take_zero, hquery, longest_nil hinv]
    rfl
  · rw [if_neg hzero, lookupKey_eq]
    split_ifs with hempty
    · rw [List.isEmpty_iff.mp hempty, longest_nil hinv]
      rfl
    · rfl

/-- An exact lookup finds the entry with exactly the tokens of the query. -/
theorem exact_eq_some (hinv : Inv orphans stray cache) (hne : query ≠ [])
    (hdvd : cache.config.pageTokens ∣ query.length) :
    cache.index.exact query cache.config.pageTokens = some id ↔ Files cache id query := by
  have hpos := hinv.config.pageTokens_pos
  constructor
  · intro hexact
    rw [PrefixIndex.exact, lookupKey_eq] at hexact
    split_ifs at hexact with hempty
    simp only at hexact
    split_ifs at hexact with hlength
    obtain ⟨entry, hentry, hkey⟩ := (hinv.filed.tree _ id).mp hexact
    have hstarts := (isPrefix_queryKey hinv hentry).mp (by rw [hkey])
    refine ⟨entry, hentry, hstarts.eq_of_length ?_⟩
    rw [PrefixIndex.length_textOf hinv.filed.table (known_blocks hinv hentry)]
    rw [not_not, ← hkey, hinv.filed.key_eq id entry hentry, length_keyOf] at hlength
    rw [show entry.blocks.length = query.length / cache.config.pageTokens by omega,
      Nat.div_mul_cancel hdvd]
  · rintro ⟨entry, hentry, htext⟩
    have hknown := known_blocks hinv hentry
    have hblocks : entry.blocks.map cache.index.tokensOf =
        (chunksExact cache.config.pageTokens query).map some := by
      rw [hknown.map_tokensOf, ← htext, PrefixIndex.textOf,
        chunksExact_flatten hpos hinv.filed.table.length_of_mem]
    have hne' : entry.blocks ≠ [] := by
      rintro hnil
      rw [hnil] at htext
      exact hne htext.symm
    rw [PrefixIndex.exact_eq hinv.filed.table hblocks hne',
      ← hinv.filed.key_eq id entry hentry]
    exact (hinv.filed.tree entry.key id).mpr ⟨entry, hentry, rfl⟩

end Find

/-! ## Steps -/

end SequenceCache

open SequenceCache

namespace Operation

/-- The entry that a call inserts, with the tokens it retains. -/
def files : Operation R → SequenceCache R → List (PrefixEntryId × List Token)
  | .retainPrefix sequence tokens snapshot context, cache =>
      match (Operation.retainPrefix sequence tokens snapshot context).result cache,
        cache.sequences.get? sequence with
      | .ok (.retained (.inserted id)), some record => [(id, tokens.take record.position)]
      | _, _ => []
  | _, _ => []

theorem nodup_files (operation : Operation R) (cache : SequenceCache R) :
    ((operation.files cache).map Prod.fst).Nodup := by
  cases operation with
  | retainPrefix sequence tokens snapshot context =>
      simp only [files]
      split
      · exact List.nodup_singleton _
      · exact List.nodup_nil
  | _ => exact List.nodup_nil

end Operation

namespace SequenceCache

section Steps

variable {orphans : List PageId} {stray : List TokenBlockId} {cache cache' : SequenceCache R}
variable {uses : SequenceId → R.Context → Prop} {opens : R.Context → Prop}
variable {id : PrefixEntryId} {text : List Token}

/-- An entry of a later state that was there before has kept its tokens. -/
theorem Files.of_since {orphans' : List PageId} {stray' : List TokenBlockId}
    (hinv : Inv orphans stray cache) (hinv' : Inv orphans' stray' cache')
    (hsince : cache.index.Since cache'.index)
    {entry entry' : PrefixEntry R.Snapshot} (hentry : cache.prefixes[id]? = some entry)
    (hentry' : cache'.prefixes[id]? = some entry') (hblocks : entry'.blocks = entry.blocks)
    (h : Files cache' id text) : Files cache id text := by
  obtain ⟨found, hfound, rfl⟩ := h
  obtain rfl := Option.some.inj (hfound.symm.trans hentry')
  refine ⟨entry, hentry, ?_⟩
  have hsame : ∀ block ∈ entry.blocks,
      cache.index.tokensOf block = cache'.index.tokensOf block := by
    intro block hmem
    obtain ⟨tokens, htokens⟩ := known_blocks hinv' hentry' block (hblocks ▸ hmem)
    obtain ⟨before, hbefore⟩ := known_blocks hinv hentry block hmem
    obtain ⟨record, hrecord, -⟩ := PrefixIndex.tokensOf_eq_some.mp hbefore
    have hbelow := hinv.filed.table.below block record hrecord
    obtain hold | hnew := hsince.tokens block tokens htokens
    · rw [hold, htokens]
    · exact absurd hbelow hnew.not_gt
  rw [PrefixIndex.textOf, PrefixIndex.textOf, hblocks, List.filterMap_congr hsame]

theorem Change.of_mem (h : Change orphans uses opens cache cache')
    {entry : PrefixEntry R.Snapshot} (hentry : cache'.prefixes[id]? = some entry) :
    cache.prefixes[id]? = some entry := by
  cases h with
  | quiet hquiet _ => rwa [hquiet.prefixes] at hentry
  | evicted _ h =>
      rw [h.prefixes, getElem?_eraseAll] at hentry
      split_ifs at hentry
      exact hentry
  | published _ => exact hentry
  | interned h => exact (congrArg (·.prefixes[id]?) h.state :).symm.trans hentry
  | reclaimed _ h => exact (congrArg (·.prefixes[id]?) h.state :).symm.trans hentry
  | admitted _ h _ _ _ => exact (congrArg (·.prefixes[id]?) h.state :).symm.trans hentry
  | reserved _ _ h => exact (congrArg (·.prefixes[id]?) h.state :).symm.trans hentry
  | settled _ _ _ h => exact (congrArg (·.prefixes[id]?) h.state :).symm.trans hentry
  | finished _ h => exact (congrArg (·.prefixes[id]?) h.state :).symm.trans hentry

theorem Progress.of_mem {orphans : List PageId} (h : Progress orphans uses opens cache cache')
    {entry : PrefixEntry R.Snapshot} (hentry : cache'.prefixes[id]? = some entry) :
    cache.prefixes[id]? = some entry := by
  induction h with
  | refl => exact hentry
  | tail _ hchange ih => exact ih (hchange.of_mem hentry)

/-- An insertion files the entry under the tokens of its key. -/
theorem Retains.files (hinv : Inv orphans stray cache) (hinv' : Inv orphans stray cache')
    {sequence : SequenceId} {tokens : List Token} {snapshot : R.Snapshot} {context : R.Context}
    {record : SequenceRecord R.AppendTransaction}
    (hrecord : cache.sequences.get? sequence = some record)
    (h : Retains stray cache sequence tokens snapshot context (.inserted id) cache') :
    id = cache.nextPrefixId ∧ cache'.nextPrefixId = cache.nextPrefixId + 1 ∧
      Files cache' id (tokens.take record.position) := by
  cases h with
  | @inserted found blocks interned evicted _ plan retired physical deferred hretainable _ hinterns
      _ _ hevicted hretained =>
      obtain rfl := Option.some.inj (hrecord.symm.trans hretainable.live)
      have hnext : evicted.nextPrefixId = cache.nextPrefixId :=
        hevicted.nextPrefixId.trans (congrArg SequenceCache.nextPrefixId hinterns.state :)
      obtain ⟨retimed, -, hprefixes⟩ := hretained.prefixes
      have hentry : cache'.prefixes[cache.nextPrefixId]? =
          some (retainedEntry record blocks snapshot cache'.clock) := by
        rw [hprefixes, hnext]
        exact ExtTreeMap.getElem?_insert_self
      refine ⟨rfl, ?_, _, hentry, ?_⟩
      · rw [← hnext]
        exact congrArg SequenceCache.nextPrefixId hretained.state
      have hsame : ∀ block ∈ blocks,
          cache'.index.tokensOf block = interned.index.tokensOf block := by
        intro block hmem
        obtain ⟨found, hfound⟩ := known_blocks hinv' hentry block hmem
        have hevicted' : evicted.index.tokensOf block = some found :=
          (congrArg (·.index.tokensOf block) hretained.state :).symm.trans hfound
        rw [hfound, hevicted.tokens block found hevicted']
      have hposition : (tokens.take record.position).length = record.position :=
        List.length_take_of_le hretainable.length_le
      have hchunks : blocks.filterMap interned.index.tokensOf =
          chunksExact cache.config.pageTokens (tokens.take record.position) :=
        PrefixIndex.filterMap_tokensOf hinterns.tokens
      change cache'.index.textOf blocks = _
      rw [PrefixIndex.textOf, List.filterMap_congr hsame, hchunks]
      refine flatten_chunksExact hinv.config.pageTokens_pos ?_
      rw [hposition]
      exact Nat.dvd_of_mod_eq_zero hretainable.aligned

/-- A call that inserts an entry files it under its tokens and a new identity. -/
theorem files_filed (hlaw : R.Retires) (hinv : Inv orphans stray cache) {operation : Operation R}
    (h : (id, text) ∈ operation.files cache) :
    id = cache.nextPrefixId ∧ (operation.step cache).nextPrefixId = cache.nextPrefixId + 1 ∧
      Files (operation.step cache) id text := by
  cases operation with
  | retainPrefix sequence tokens snapshot context =>
      simp only [Operation.files] at h
      split at h
      case h_2 => exact absurd h List.not_mem_nil
      rename_i found record hresult hrecord
      obtain ⟨rfl, rfl⟩ := Prod.mk.inj (List.mem_singleton.mp h)
      obtain ⟨outcome, cache', hrun, hstep, hreply⟩ := Operation.result_eq_ok rfl hresult
      cases hreply
      have hspec := retainPrefix_spec hlaw hinv sequence tokens snapshot context
      rw [hrun] at hspec
      obtain ⟨hinv', hretains⟩ := hspec
      rw [hstep]
      exact hretains.files hinv hinv' hrecord
  | _ => exact absurd h List.not_mem_nil

/-- An entry that a call reports was there before, or the call has inserted it. -/
theorem touched_cases (hlaw : R.Retires) (hinv : Inv orphans stray cache) {operation : Operation R}
    (h : touchedBy (operation.result cache) = some id) :
    id ∈ cache.prefixes ∨ ∃ text, (id, text) ∈ operation.files cache := by
  cases hresult : operation.result cache with
  | error failure =>
      rw [hresult] at h
      cases h
  | ok reply =>
      rw [hresult] at h
      change reply.touched = some id at h
      cases operation with
      | retainPrefix sequence tokens snapshot context =>
          obtain ⟨outcome, cache', hrun, -, rfl⟩ := Operation.result_eq_ok rfl hresult
          have hspec := retainPrefix_spec hlaw hinv sequence tokens snapshot context
          rw [hrun] at hspec
          cases hspec.2 with
          | duplicate _ hexact _ =>
              obtain ⟨entry, hentry⟩ := exact_live hinv hexact
              cases h
              exact Or.inl (ExtTreeMap.mem_iff_isSome_getElem?.mpr (by rw [hentry]; rfl))
          | @inserted record _ _ _ _ _ _ _ _ hretainable =>
              cases h
              refine Or.inr ⟨tokens.take record.position, ?_⟩
              rw [Operation.files, hresult, hretainable.live]
              exact List.mem_singleton_self _
      | lookupPrefix tokens =>
          obtain ⟨found, cache', hrun, -, rfl⟩ := Operation.result_eq_ok rfl hresult
          have hspec := lookupPrefix_spec hinv tokens
          rw [hrun] at hspec
          obtain ⟨result, rfl, rfl⟩ := Option.map_eq_some_iff.mp h
          obtain ⟨other, -, hfound⟩ := Option.bind_eq_some_iff.mp hspec.2.symm
          obtain ⟨entry, hentry, rfl⟩ := Option.map_eq_some_iff.mp hfound
          exact Or.inl (ExtTreeMap.mem_iff_isSome_getElem?.mpr (by rw [hentry]; rfl))
      | _ =>
          obtain ⟨value, cache', -, -, rfl⟩ := Operation.result_eq_ok rfl hresult
          cases h

/-- What is filed after a call was filed before, or the call has filed it. -/
theorem Files.step (hlaw : R.Retires) (hinv : Inv orphans stray cache) {operation : Operation R}
    (h : Files (operation.step cache) id text) :
    Files cache id text ∨ (id, text) ∈ operation.files cache := by
  have hevolves := operation.evolves hlaw hinv
  have hsince := hevolves.since
  have hfiled := fun text' (hmem : (id, text') ∈ operation.files cache) =>
    (files_filed hlaw hinv hmem).2.2
  obtain ⟨orphans', stray', hinv'⟩ := operation.inv hlaw hinv
  generalize operation.step cache = cache' at h hevolves hsince hinv' hfiled
  have hfiles := h
  obtain ⟨entry', hentry', -⟩ := h
  have hold : ∀ entry, cache.prefixes[id]? = some entry → entry'.blocks = entry.blocks →
      Files cache id text := fun entry hentry hblocks =>
    hfiles.of_since hinv hinv' hsince hentry hentry' hblocks
  cases hevolves with
  | progressed hprogress _ _ _ => exact Or.inl (hold entry' (hprogress.of_mem hentry') rfl)
  | touched htouched _ =>
      obtain ⟨entry, hentry, huntimed⟩ := htouched.retimed.of_new hentry'
      exact Or.inl (hold entry hentry (congrArg PrefixEntry.blocks huntimed :))
  | @retained middle _ _ _ _ _ hprogress hretained htouched _ _ =>
      obtain ⟨retimed, hretimed, hprefixes⟩ := hretained.prefixes
      by_cases hnew : id = middle.nextPrefixId
      · subst hnew
        obtain hmem | ⟨text', hmem⟩ := touched_cases hlaw hinv htouched
        · exact absurd (hinv.ids_below _ hmem) hprogress.follows.nextPrefixId.not_gt
        · exact Or.inr (hfiles.unique (hfiled text' hmem) ▸ hmem)
      · rw [hprefixes, getElem?_insert_eq, if_neg hnew] at hentry'
        obtain ⟨entry, hentry, huntimed⟩ := hretimed.of_new hentry'
        exact Or.inl (hold entry (hprogress.of_mem hentry)
          (congrArg PrefixEntry.blocks huntimed :))
  | torn hprogress _ _ htorn _ _ _ =>
      obtain ⟨record, pending, event, before, last, after, -, -, htorn, -⟩ := htorn
      rw [htorn.state] at hentry'
      exact Or.inl (hold entry' (hprogress.of_mem hentry') rfl)

end Steps

/-! ## Runs -/

/-- The entry is retained after the calls, and was inserted for the tokens. -/
def Keeps (operations : List (Operation R)) (start : SequenceCache R) (id : PrefixEntryId)
    (text : List Token) : Prop :=
  id ∈ (runAll Operation.step operations start).prefixes ∧
    (id, text) ∈ reported Operation.step Operation.files operations start

section Runs

variable {start : SequenceCache R} {id : PrefixEntryId} {text : List Token}

/-- Some ghost state satisfies the invariant. -/
def Invariant (cache : SequenceCache R) : Prop := ∃ orphans stray, Inv orphans stray cache

theorem reported_of_files (hlaw : R.Retires) (operations : List (Operation R))
    (hinv : Invariant start) (h : Files (runAll Operation.step operations start) id text) :
    Files start id text ∨ (id, text) ∈ reported Operation.step Operation.files
      operations start := by
  induction operations generalizing start with
  | nil => exact Or.inl h
  | cons operation rest ih =>
      obtain ⟨orphans, stray, hinv⟩ := hinv
      rw [reported, List.mem_append]
      obtain hmiddle | hlater := ih (operation.inv hlaw hinv) h
      · obtain hstart | hnow := hmiddle.step hlaw hinv
        · exact Or.inl hstart
        · exact Or.inr (Or.inl hnow)
      · exact Or.inr (Or.inr hlater)

/-- An identity is issued to one entry. -/
theorem reported_files_unique (hlaw : R.Retires) (operations : List (Operation R))
    (hinv : Invariant start) {text' : List Token}
    (h : (id, text) ∈ reported Operation.step Operation.files operations start)
    (h' : (id, text') ∈ reported Operation.step Operation.files operations start) :
    text = text' := by
  have hfresh : ((reported Operation.step Operation.files operations start).map
      Prod.fst).Nodup := by
    refine (reported_fresh Invariant (fun state id => id < state.nextPrefixId) Prod.fst ?_
      operations hinv).1
    rintro operation state ⟨orphans, stray, hstate⟩
    refine ⟨operation.inv hlaw hstate,
      fun id hid => hid.trans_le (operation.follows hlaw hstate).nextPrefixId,
      operation.nodup_files state, ?_⟩
    rintro ⟨issued, tokens⟩ hmem
    obtain ⟨rfl, hnext, -⟩ := files_filed hlaw hstate hmem
    exact ⟨lt_irrefl _, hnext ▸ Nat.lt_succ_self _⟩
  exact congrArg Prod.snd (List.inj_on_of_nodup_map hfresh h h' rfl)

/-- The tokens an entry was inserted for are those it is filed under. -/
theorem keeps_iff_files (hlaw : R.Retires) {config : CacheConfig}
    (hnew : SequenceCache.new R config = .ok start) (operations : List (Operation R)) :
    Keeps operations start id text ↔ Files (runAll Operation.step operations start) id text := by
  have hstart : Invariant start := ⟨[], [], inv_of_new hnew⟩
  have hempty : ∀ other text', ¬ Files start other text' := by
    rintro other text' ⟨entry, hentry, -⟩
    rw [(new_eq_ok.mp hnew).2] at hentry
    exact Option.some_ne_none entry (hentry.symm.trans ExtTreeMap.getElem?_empty)
  have hreported : ∀ other text', Files (runAll Operation.step operations start) other text' →
      (other, text') ∈ reported Operation.step Operation.files operations start :=
    fun other text' h => (reported_of_files hlaw operations hstart h).resolve_left
      (hempty other text')
  constructor
  · rintro ⟨hlive, hmem⟩
    obtain ⟨entry, hentry⟩ := Option.isSome_iff_exists.mp
      (ExtTreeMap.mem_iff_isSome_getElem?.mp hlive)
    have hfiles : Files (runAll Operation.step operations start) id _ := ⟨entry, hentry, rfl⟩
    rwa [reported_files_unique hlaw operations hstart hmem (hreported id _ hfiles)]
  · intro hfiles
    have hmem := hreported id text hfiles
    obtain ⟨entry, hentry, -⟩ := hfiles
    exact ⟨ExtTreeMap.mem_iff_isSome_getElem?.mpr (by rw [hentry]; rfl), hmem⟩

end Runs

/-! ## Lookups -/

/-- The largest position below the number of tokens that lies on a page boundary. -/
def Cacheable (pageTokens count position : ℕ) : Prop :=
  IsGreatest {aligned | pageTokens ∣ aligned ∧ aligned < count} position ∨ count = 0 ∧ position = 0

theorem Cacheable.eq {cache : SequenceCache R} {count position : ℕ}
    (h : Cacheable cache.config.pageTokens count position) (hpos : 0 < cache.config.pageTokens) :
    position = cache.cacheablePrefixTokens count := by
  obtain hgreatest | ⟨rfl, rfl⟩ := h
  · refine hgreatest.unique ⟨⟨Nat.dvd_mul_left _ _, ?_⟩, ?_⟩
    · have hle : cache.cacheablePrefixTokens count ≤ count - 1 := Nat.div_mul_le_self _ _
      have hpositive := hgreatest.1.2
      omega
    · rintro _ ⟨⟨factor, rfl⟩, hlt⟩
      rw [cacheablePrefixTokens, Nat.mul_comm]
      refine Nat.mul_le_mul_right _ ((Nat.le_div_iff_mul_le hpos).mpr ?_)
      rw [Nat.mul_comm]
      exact Nat.le_sub_one_of_lt hlt
  · rw [cacheablePrefixTokens, Nat.zero_sub, Nat.zero_div, Nat.zero_mul]

/-- What a lookup reports: the entry with the longest tokens that the query starts with, at its
position and with its pages. -/
def Hit (keeps : PrefixEntryId → List Token → Prop) (pageTokens : ℕ) (query : List Token)
    (found : PrefixMatch) : Prop :=
  ∃ text, LongestIn keeps query found.entry text ∧ found.position = text.length ∧
    found.pageCount * pageTokens = text.length

section Lookup

variable {orphans : List PageId} {stray : List TokenBlockId} {cache : SequenceCache R}
variable {keeps : PrefixEntryId → List Token → Prop} {tokens : List Token}

/-- A lookup reports exactly the hit for its query, and nothing where there is none. -/
theorem findPrefix_exact (hinv : Inv orphans stray cache)
    (hkeeps : ∀ id text, keeps id text ↔ Files cache id text) {result : Option PrefixMatch}
    (hresult : result = (cache.findPrefix tokens).bind fun id => cache.prefixes[id]?.map
      fun entry =>
      ⟨id, entry.position, entry.pages.length⟩) :
    (∀ found, result = some found ↔ Hit keeps cache.config.pageTokens
        (tokens.take (cache.cacheablePrefixTokens tokens.length)) found) ∧
      (result = none ↔ ∀ id text, keeps id text →
        ¬ text <+: tokens.take (cache.cacheablePrefixTokens tokens.length)) := by
  obtain rfl : keeps = Files cache := funext fun id => funext fun text => propext (hkeeps id text)
  rw [findPrefix_eq_longest hinv] at hresult
  generalize tokens.take (cache.cacheablePrefixTokens tokens.length) = query at hresult ⊢
  have hfound : ∀ found, result = some found ↔ Hit (Files cache) cache.config.pageTokens
      query found := by
    intro found
    rw [hresult]
    constructor
    · intro h
      obtain ⟨id, hlongest, hentry⟩ := Option.bind_eq_some_iff.mp h
      obtain ⟨entry, hlive, rfl⟩ := Option.map_eq_some_iff.mp hentry
      obtain ⟨text, htext⟩ := (longest_eq_some hinv).mp hlongest
      obtain rfl := Files.unique ⟨entry, hlive, rfl⟩ htext.kept
      obtain ⟨hlength, hpages⟩ := length_textOf_entry hinv hlive
      exact ⟨_, htext, hlength.symm, hpages.trans hlength.symm⟩
    · rintro ⟨text, htext, hposition, hpages⟩
      rw [(longest_eq_some hinv).mpr ⟨text, htext⟩]
      obtain ⟨entry, hlive, rfl⟩ := htext.kept
      obtain ⟨hlength, hpages'⟩ := length_textOf_entry hinv hlive
      have hcount : entry.pages.length = found.pageCount :=
        Nat.eq_of_mul_eq_mul_right hinv.config.pageTokens_pos
          (hpages'.trans (hlength.symm.trans hpages.symm))
      rw [Option.bind_some, hlive, Option.map_some, ← hlength, ← hposition, hcount]
  refine ⟨hfound, fun hnone id text hfiles hstarts => ?_, fun hnone => ?_⟩
  · obtain ⟨other, text', hlongest⟩ := LongestIn.exists hfiles hstarts
    obtain ⟨entry, hlive, rfl⟩ := hlongest.kept
    obtain ⟨hlength, hpages⟩ := length_textOf_entry hinv hlive
    have hit := (hfound ⟨other, entry.position, entry.pages.length⟩).mpr
      ⟨_, hlongest, hlength.symm, hpages.trans hlength.symm⟩
    rw [hnone] at hit
    cases hit
  · refine Option.eq_none_iff_forall_ne_some.mpr fun found hresult' => ?_
    obtain ⟨text, htext, -⟩ := (hfound found).mp hresult'
    exact hnone found.entry text htext.kept htext.isPrefix

theorem containsPrefix_exact (hinv : Inv orphans stray cache)
    (hkeeps : ∀ id text, keeps id text ↔ Files cache id text) (position : ℕ) :
    cache.containsPrefix tokens position = true ↔ 0 < position ∧
      cache.config.pageTokens ∣ position ∧ position ≤ tokens.length ∧
        ∃ id, keeps id (tokens.take position) := by
  simp only [containsPrefix, Bool.and_eq_true, decide_eq_true_iff, and_assoc,
    ← Nat.pos_iff_ne_zero, ← Nat.dvd_iff_mod_eq_zero, ge_iff_le]
  refine and_congr_right fun hpositive => and_congr_right fun hdvd =>
    and_congr_right fun hle => ?_
  have hlength : (tokens.take position).length = position := List.length_take_of_le hle
  have hne : tokens.take position ≠ [] := by
    intro hnil
    rw [hnil, List.length_nil] at hlength
    exact hpositive.ne hlength
  rw [Option.isSome_iff_exists]
  refine exists_congr fun id => ?_
  rw [hkeeps, exact_eq_some hinv hne (by rwa [hlength])]

end Lookup

/-- In every state of a run, whatever was retained, evicted and interned again before: a lookup
finds the entry that was inserted for the longest token list with which the query starts, and
nothing when there is none; the exact test finds exactly what is retained; and neither changes
the index or a page. -/
theorem lookupPrefix_exact (hlaw : R.Lawful) {config : CacheConfig} {start cache : SequenceCache R}
    (hnew : SequenceCache.new R config = .ok start) {operations : List (Operation R)}
    (hcache : runAll Operation.step operations start = cache) (tokens : List Token) {position : ℕ}
    (hposition : Cacheable cache.config.pageTokens tokens.length position) :
    Ends (lookupPrefix tokens cache)
      (fun result cache' =>
        (∀ found, result = some found ↔ Hit (Keeps operations start) cache.config.pageTokens
            (tokens.take position) found) ∧
          (result = none ↔ ∀ id text, Keeps operations start id text →
            ¬ text <+: tokens.take position) ∧
          cache'.index = cache.index ∧ cache'.pages = cache.pages)
      (fun failure cache' => failure = .panic "attempt to add with overflow" ∧
        cache.prefixes.size = usizeMax ∧ cache'.index = cache.index ∧ cache'.pages = cache.pages) ∧
      ∀ aligned, cache.containsPrefix tokens aligned = true ↔ 0 < aligned ∧
        cache.config.pageTokens ∣ aligned ∧ aligned ≤ tokens.length ∧
          ∃ id, Keeps operations start id (tokens.take aligned) := by
  obtain ⟨orphans, stray, hinv⟩ : Invariant cache := by
    rw [← hcache]
    refine runAll_invariant Invariant ?_ operations ⟨[], [], inv_of_new hnew⟩
    rintro operation state ⟨orphans, stray, hstate⟩
    exact operation.inv hlaw.toRetires hstate
  have hkeeps : ∀ id text, Keeps operations start id text ↔ Files cache id text := by
    intro id text
    rw [keeps_iff_files hlaw.toRetires hnew, hcache]
  obtain rfl := hposition.eq hinv.config.pageTokens_pos
  refine ⟨Ends.mono (lookupPrefix_spec hinv tokens) ?_ ?_, containsPrefix_exact hinv hkeeps⟩
  · rintro result cache' ⟨htouched, hresult⟩
    obtain ⟨hfound, hnone⟩ := findPrefix_exact hinv hkeeps hresult
    exact ⟨hfound, hnone, (congrArg SequenceCache.index htouched.state :),
      (congrArg SequenceCache.pages htouched.state :)⟩
  · rintro failure cache' ⟨hfailure, hsize, htouched⟩
    exact ⟨hfailure, hsize, (congrArg SequenceCache.index htouched.state :),
      (congrArg SequenceCache.pages htouched.state :)⟩

/-- The query starts with the retained tokens and goes on. -/
theorem lookupPrefix_exact_served :
    outcome (lookupPrefix [1, 1, 2] (Reference.after Reference.served)) = .ok (some ⟨0, 2, 1⟩) ∧
      Hit (Keeps Reference.served Reference.start) 2 [1, 1] ⟨0, 2, 1⟩ ∧
      ((Reference.after Reference.served).containsPrefix [1, 1, 2] 2 = true ↔ 0 < 2 ∧ 2 ∣ 2 ∧
        2 ≤ [1, 1, 2].length ∧ ∃ id, Keeps Reference.served Reference.start id [1, 1]) := by
  have hresult : outcome (lookupPrefix [1, 1, 2] (Reference.after Reference.served)) =
      .ok (some ⟨0, 2, 1⟩) := by decide +kernel
  have hconfig : (Reference.after Reference.served).config.pageTokens = 2 := by decide +kernel
  have hcache : runAll Operation.step Reference.served Reference.start =
      Reference.after Reference.served := rfl
  generalize Reference.after Reference.served = cache at *
  have hposition : Cacheable cache.config.pageTokens [1, 1, 2].length 2 := by
    rw [hconfig]
    refine Or.inl ⟨⟨dvd_rfl, by decide⟩, fun position h => ?_⟩
    exact Nat.lt_succ_iff.mp h.2
  obtain ⟨hlookup, hcontains⟩ := lookupPrefix_exact Reference.plain_lawful Reference.new_start
    hcache [1, 1, 2] hposition
  rw [eq_ok_of_outcome hresult, hconfig] at hlookup
  rw [hconfig] at hcontains
  exact ⟨hresult, (hlookup.1 ⟨0, 2, 1⟩).mp rfl, hcontains 2⟩

/-! ## Integrity -/

/-- The intern table, the counts, the tree and the retained entries describe each other. -/
structure Indexed (cache : SequenceCache R) : Prop where
  inverse : ∀ (tokens : List Token) (id : TokenBlockId),
    cache.index.byTokens[tokens]? = some id ↔ cache.index.tokensOf id = some tokens
  counted : ∀ (id : TokenBlockId) (record : BlockRecord), cache.index.blocks[id]? = some record →
    record.prefixRefs = mapTotal (fun entry => entry.blocks.count id) cache.prefixes ∧
      0 < record.prefixRefs ∧ record.tokens.length = cache.config.pageTokens ∧
      id < cache.index.nextBlockId
  interned : ∀ (id : PrefixEntryId) (entry : PrefixEntry R.Snapshot),
    cache.prefixes[id]? = some entry → ∀ block ∈ entry.blocks, block ∈ cache.index.blocks
  key : ∀ (id : PrefixEntryId) (entry : PrefixEntry R.Snapshot),
    cache.prefixes[id]? = some entry → entry.key = keyOf entry.blocks
  tree : ∀ key id, R.getBytes cache.index.tree key = some id ↔
    ∃ entry, cache.prefixes[id]? = some entry ∧ keyOf entry.blocks = key
  distinct : ∀ id other text, Files cache id text → Files cache other text → id = other

theorem Inv.indexed {orphans : List PageId} {cache : SequenceCache R}
    (hinv : Inv orphans [] cache) : Indexed cache where
  inverse _ _ := hinv.filed.table.byTokens_iff
  counted id record hrecord := by
    obtain ⟨hrefs, hheld⟩ := hinv.filed.table.refs id record hrecord
    refine ⟨hrefs, hrefs ▸ hheld, hinv.filed.table.length id record hrecord,
      hinv.filed.table.below id record hrecord⟩
  interned id entry hentry block hmem := by
    obtain ⟨tokens, htokens⟩ := known_blocks hinv hentry block hmem
    obtain ⟨record, hrecord, -⟩ := PrefixIndex.tokensOf_eq_some.mp htokens
    exact ExtTreeMap.mem_iff_isSome_getElem?.mpr (by rw [hrecord]; rfl)
  key id entry := hinv.filed.key_eq id entry
  tree key id := by
    rw [hinv.filed.tree]
    refine exists_congr fun entry => and_congr_right fun hentry => ?_
    rw [hinv.filed.key_eq id entry hentry]
  distinct id other text := Files.injective hinv

theorem Evolves.inv_of_not_strays {orphans : List PageId} {stray : List TokenBlockId}
    {strays : Prop} {uses : SequenceId → R.Context → Prop} {opens : R.Context → Prop}
    {cache cache' : SequenceCache R} {result : Except (Failure R.Error) (Reply R)}
    (h : Evolves orphans stray strays uses opens cache result cache') (hstrays : ¬ strays) :
    ∃ orphans', Inv orphans' stray cache' := by
  cases h with
  | progressed _ _ hstray hinv => exact ⟨orphans, hstray.resolve_right hstrays ▸ hinv⟩
  | touched _ hinv => exact ⟨orphans, hinv⟩
  | retained _ _ _ hinv _ => exact ⟨orphans, hinv⟩
  | torn _ _ _ _ _ _ hinv => exact ⟨_, hinv⟩

end SequenceCache

/-- The call is a retention that reports an exhausted identity space or an overflow. -/
def Operation.runsOut (operation : Operation R) (cache : SequenceCache R) : Bool :=
  match operation, operation.result cache with
  | .retainPrefix _ _ _ _, .error (.error .arithmeticOverflow) => true
  | .retainPrefix _ _ _ _, .error (.error (.idExhausted _)) => true
  | _, _ => false

theorem Operation.Strays.runsOut {operation : Operation R} {cache : SequenceCache R}
    (h : operation.Strays cache) : operation.runsOut cache = true := by
  cases operation with
  | retainPrefix sequence tokens snapshot context =>
      obtain hresult | ⟨hresult, -⟩ := h
      · simp only [Operation.runsOut, hresult]
      · simp only [Operation.runsOut, hresult]
  | _ => exact h.elim

namespace SequenceCache

/-- As long as no retention runs out of identities or of room in a machine word, the index is
coherent after every call.  A block identity that was issued is never used for other tokens,
and never comes back once its block was collected. -/
theorem index_integrity (hlaw : R.Lawful) {config : CacheConfig} {start cache : SequenceCache R}
    (hnew : SequenceCache.new R config = .ok start)
    (hreach : Reachable Operation.step
      (fun cache operation => operation.runsOut cache = false) start cache) :
    Indexed cache ∧ ∀ (operations : List (Operation R)) (block : TokenBlockId)
      (tokens : List Token), block < cache.index.nextBlockId →
      (runAll Operation.step operations cache).index.tokensOf block = some tokens →
      cache.index.tokensOf block = some tokens := by
  obtain ⟨orphans, hinv⟩ : ∃ orphans, Inv orphans [] cache := by
    induction hreach with
    | start => exact ⟨[], inv_of_new hnew⟩
    | step operation _ hkept ih =>
        obtain ⟨orphans, hstate⟩ := ih
        refine (operation.evolves hlaw.toRetires hstate).inv_of_not_strays fun hstrays => ?_
        rw [hstrays.runsOut] at hkept
        cases hkept
  refine ⟨Inv.indexed hinv, fun operations block tokens hissued htokens => ?_⟩
  have hsince : Invariant (runAll Operation.step operations cache) ∧
      cache.index.Since (runAll Operation.step operations cache).index := by
    refine runAll_invariant (fun state => Invariant state ∧ cache.index.Since state.index) ?_
      operations ⟨⟨orphans, [], hinv⟩, .refl _⟩
    rintro operation state ⟨⟨orphans', stray', hstate⟩, hsince⟩
    exact ⟨operation.inv hlaw.toRetires hstate,
      hsince.trans (operation.evolves hlaw.toRetires hstate).since⟩
  exact (hsince.2.tokens block tokens htokens).resolve_right hissued.not_ge

theorem index_integrity_served : Indexed (Reference.after Reference.served) := by
  have hkept : AllAllowed Operation.step
      (fun (cache : SequenceCache Reference.plain) operation => operation.runsOut cache = false)
      Reference.served Reference.start := by
    decide +kernel
  exact (index_integrity Reference.plain_lawful Reference.new_start
    (Reachable.start.runAll hkept)).1

end SequenceCache

end SeqCache
