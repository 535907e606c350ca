import SeqCache.Index.Interning
import SeqCache.Run.Reachable

/-!
# Interning can be taken back

A prepared key that is rolled back leaves the intern table as if it had never been
prepared, also when committed keys were removed in between.  The identities of blocks are
the only thing that is used up.
-/

namespace SeqCache

open Machine Program Std

variable {R : Runtime}

namespace PrefixIndex

/-- The two maps of the table are inverse to each other, and every block is referenced. -/
structure Inverse (index : PrefixIndex R) : Prop where
  byTokens_iff : ∀ (tokens : List Token) (id : TokenBlockId),
    index.byTokens[tokens]? = some id ↔ index.tokensOf id = some tokens
  refs_ne : ∀ (id : TokenBlockId) (record : BlockRecord), index.blocks[id]? = some record →
    record.prefixRefs ≠ 0

/-- The next identity has not been issued to any interned block. -/
structure Unissued (index : PrefixIndex R) : Prop where
  below : ∀ (id : TokenBlockId) (record : BlockRecord), index.blocks[id]? = some record →
    id < index.nextBlockId
  bounded : index.nextBlockId ≤ usizeMax

/-- References on a block. -/
def refsOf (index : PrefixIndex R) (id : TokenBlockId) : ℕ :=
  (index.blocks[id]?.map BlockRecord.prefixRefs).getD 0

/-- Remove committed keys with the blocks whose references they own. -/
def removeAll : List (PrefixKey × List TokenBlockId) → IndexM R Unit
  | [] => pure ()
  | (key, blocks) :: rest => do
      remove key blocks
      removeAll rest

section Removal

variable {index : PrefixIndex R} {held : TokenBlockId → ℕ}

theorem refsOf_eq {id : TokenBlockId} {record : BlockRecord}
    (hrecord : index.blocks[id]? = some record) : index.refsOf id = record.prefixRefs := by
  rw [refsOf, hrecord, Option.map_some, Option.getD_some]

/-- An inverse table is consistent with its own counts. -/
theorem Inverse.consistent (h : Inverse index) (hunissued : Unissued index) :
    Consistent index.refsOf index := by
  refine ⟨?_, ?_, ?_, ?_, hunissued.below, hunissued.bounded⟩
  · intro id record hrecord
    rw [refsOf_eq hrecord]
    exact ⟨rfl, Nat.pos_of_ne_zero (h.refs_ne id record hrecord)⟩
  · intro id hpos
    cases hrecord : index.blocks[id]? with
    | some record => exact ⟨record, rfl⟩
    | none =>
        rw [refsOf, hrecord] at hpos
        exact absurd hpos (lt_irrefl 0)
  · intro id record hrecord
    rw [h.byTokens_iff, tokensOf, hrecord, Option.map_some]
  · intro tokens id hid
    exact tokensOf_eq_some.mp ((h.byTokens_iff tokens id).mp hid)

/-- Removing keys takes their references away, as long as these are there. -/
theorem removeAll_spec (keys : List (PrefixKey × List TokenBlockId)) (h : Consistent held index)
    (howned : ∀ id, (keys.flatMap Prod.snd).count id ≤ held id) :
    ∃ index', removeAll keys index = .ok () index' ∧
      Consistent (fun id => held id - (keys.flatMap Prod.snd).count id) index' ∧
      index'.tree = keys.foldl (fun tree item => R.removeK tree item.1) index.tree ∧
      index'.nextBlockId = index.nextBlockId ∧
      ∀ id tokens, index'.tokensOf id = some tokens → index.tokensOf id = some tokens := by
  induction keys generalizing index held with
  | nil => exact ⟨index, rfl, by simpa using h, rfl, rfl, fun _ _ htokens => htokens⟩
  | cons item rest ih =>
      obtain ⟨key, blocks⟩ := item
      simp only [List.flatMap_cons, List.count_append] at howned
      obtain ⟨middle, hrelease, hmiddle, htree, hnext, htokens⟩ := releaseEach_spec
        "prefix token block remains interned" blocks (h.setTree (R.removeK index.tree key))
        fun id => (Nat.le_add_right _ _).trans (howned id)
      have hrun : remove key blocks index = .ok () middle := by
        rw [remove, modify_bind_run]
        exact hrelease
      obtain ⟨index', hrest, hindex', htree', hnext', htokens'⟩ := ih hmiddle fun id => by
        have hid := howned id
        omega
      refine ⟨index', ?_, hindex'.congr fun id => ?_, ?_, hnext'.trans hnext, ?_⟩
      · rw [removeAll, bind_ok hrun, hrest]
      · rw [List.flatMap_cons, List.count_append, Nat.sub_sub]
      · rw [htree', htree, List.foldl_cons]
      · intro id tokens hid
        exact htokens id tokens (htokens' id tokens hid)

variable {index' : PrefixIndex R} {blocks : List TokenBlockId}

/-- Taking a prepared key back after some removals leaves what the removals alone leave. -/
theorem Adds.undo (h : Adds held index blocks index') (hconsistent : Consistent held index)
    (removed : List (PrefixKey × List TokenBlockId))
    (howned : ∀ id, (removed.flatMap Prod.snd).count id ≤ held id) (key : PrefixKey) :
    ∃ between final alone, removeAll removed index' = .ok () between ∧
      rollbackKey ⟨key, blocks⟩ between = .ok () final ∧
      removeAll removed index = .ok () alone ∧
      final.blocks = alone.blocks ∧ final.byTokens = alone.byTokens ∧
      final.tree = alone.tree ∧ final.tree = between.tree ∧
      final.nextBlockId = index'.nextBlockId ∧ alone.nextBlockId = index.nextBlockId := by
  obtain ⟨alone, halone, haloneTable, haloneTree, haloneNext, haloneTokens⟩ :=
    removeAll_spec removed hconsistent howned
  obtain ⟨between, hbetween, hbetweenTable, hbetweenTree, hbetweenNext, hbetweenTokens⟩ :=
    removeAll_spec removed h.consistent fun id => (howned id).trans (Nat.le_add_right _ _)
  obtain ⟨final, hfinal, hfinalTable, hfinalTree, hfinalNext, hfinalTokens⟩ :=
    releaseEach_spec "prepared token block remains interned" blocks hbetweenTable fun id => by
      have hid := howned id
      omega
  have hcounts := hfinalTable.congr fun id => show held id - (removed.flatMap Prod.snd).count id =
      held id + blocks.count id - (removed.flatMap Prod.snd).count id - blocks.count id by
    have hid := howned id
    omega
  have hagrees : Agrees alone final := by
    intro id tokens tokens' hold hnew
    have hkept := h.tokens id tokens (haloneTokens id tokens hold)
    rw [hbetweenTokens id tokens' (hfinalTokens id tokens' hnew), Option.some.injEq] at hkept
    exact hkept
  obtain ⟨hblocks, hbyTokens⟩ := haloneTable.tables_eq hcounts hagrees
  refine ⟨between, final, alone, hbetween, hfinal, halone, hblocks, hbyTokens, ?_, hfinalTree,
    hfinalNext.trans hbetweenNext, haloneNext⟩
  rw [hfinalTree, hbetweenTree, haloneTree, h.tree]

end Removal

/-- For every inverse table whose next identity is unissued, and whatever keys are removed
between a preparation and its rollback, the preparation leaves no trace but the identities
it has used up. -/
theorem prepareKey_reversible (index : PrefixIndex R) (hinverse : Inverse index)
    (hunissued : Unissued index) (tokens : List Token) (pageTokens : ℕ) :
    (∃ error index', prepareKey tokens pageTokens index = .error (.error error) index' ∧
        SameTable index index') ∨
      ∃ prepared index', prepareKey tokens pageTokens index = .ok prepared index' ∧
        index'.tree = index.tree ∧ index.nextBlockId ≤ index'.nextBlockId ∧
        ∀ removed : List (PrefixKey × List TokenBlockId),
          (∀ id, (removed.flatMap Prod.snd).count id ≤ index.refsOf id) →
          ∃ between final alone, removeAll removed index' = .ok () between ∧
            rollbackKey prepared between = .ok () final ∧
            removeAll removed index = .ok () alone ∧
            final.blocks = alone.blocks ∧ final.byTokens = alone.byTokens ∧
            final.tree = alone.tree ∧ final.tree = between.tree ∧
            final.nextBlockId = index'.nextBlockId ∧ alone.nextBlockId = index.nextBlockId := by
  have hconsistent := hinverse.consistent hunissued
  rcases internBlocks_cases hconsistent (chunksExact pageTokens tokens) (.refl hconsistent) with
    ⟨error, index', hrun, hsame, -⟩ | ⟨blocks, index', hrun, hadds, -, -⟩
  · refine Or.inl ⟨error, index', ?_, hsame⟩
    rw [prepareKey, bind_error hrun]
  · rw [List.nil_append] at hrun hadds
    refine Or.inr ⟨⟨keyOf blocks, blocks⟩, index', ?_, hadds.tree, hadds.next,
      fun removed howned => hadds.undo hconsistent removed howned _⟩
    rw [prepareKey, bind_ok hrun, pure_run]

end PrefixIndex

/-! ## Examples -/

namespace Reference

/-- One interned block of one token. -/
def interned : PrefixIndex plain where
  tree := plain.newTree
  byTokens := (∅ : ExtTreeMap (List Token) TokenBlockId).insert [1] 0
  blocks := (∅ : ExtTreeMap TokenBlockId BlockRecord).insert 0 ⟨[1], 1⟩
  nextBlockId := 1

/-- The same table, about to issue the identity of the block once more. -/
def reissuing : PrefixIndex plain := { interned with nextBlockId := 0 }

theorem tokensOf_interned (id : TokenBlockId) :
    interned.tokensOf id = if id = 0 then some [1] else none := by
  unfold PrefixIndex.tokensOf interned
  simp only [getElem?_insert_eq]
  split_ifs <;> simp

theorem inverse_interned : PrefixIndex.Inverse interned := by
  refine ⟨fun tokens id => ?_, fun id record hrecord => ?_⟩
  · rw [tokensOf_interned, interned]
    simp only [getElem?_insert_eq]
    split_ifs with htokens hid hid <;> simp_all [eq_comm]
  · rw [interned] at hrecord
    simp only [getElem?_insert_eq] at hrecord
    split_ifs at hrecord
    · obtain rfl := Option.some.inj hrecord
      exact one_ne_zero
    · simp at hrecord

theorem unissued_interned : PrefixIndex.Unissued interned := by
  refine ⟨fun id record hrecord => ?_, by decide⟩
  have hid := tokensOf_interned id
  rw [PrefixIndex.tokensOf, hrecord, Option.map_some] at hid
  split_ifs at hid with hzero
  rw [hzero]
  exact Nat.zero_lt_one

end Reference

namespace PrefixIndex

/-- A key of a known and a new block is prepared; the only committed key is removed before
the rollback. -/
theorem prepareKey_reversible_interned : ∃ prepared index' between final alone,
    prepareKey [1, 2] 1 Reference.interned = .ok prepared index' ∧
      removeAll [([], [0])] index' = .ok () between ∧
      rollbackKey prepared between = .ok () final ∧
      removeAll [([], [0])] Reference.interned = .ok () alone ∧
      final.blocks = alone.blocks ∧ final.byTokens = alone.byTokens := by
  have hok : (outcome (prepareKey [1, 2] 1 Reference.interned)).isOk := by decide +kernel
  have howned : ∀ id, (([(([] : PrefixKey), [0])] : List (PrefixKey × List TokenBlockId)).flatMap
      Prod.snd).count id ≤ Reference.interned.refsOf id := by
    intro id
    by_cases hid : id = 0
    · subst hid
      decide +kernel
    · simp [Ne.symm hid]
  rcases prepareKey_reversible Reference.interned Reference.inverse_interned
      Reference.unissued_interned [1, 2] 1 with
    ⟨error, index', hrun, -⟩ | ⟨prepared, index', hrun, -, -, hremoved⟩
  · rw [hrun] at hok
    cases hok
  · obtain ⟨between, final, alone, hbetween, hfinal, halone, hblocks, hbyTokens, -⟩ :=
      hremoved [([], [0])] howned
    exact ⟨prepared, index', between, final, alone, hrun, hbetween, hfinal, halone, hblocks,
      hbyTokens⟩

/-- When the next identity is that of an interned block, preparing and rolling back another
block loses the first one. -/
theorem prepareKey_reissues : Inverse Reference.reissuing ∧
    Reference.reissuing.nextBlockId ≤ usizeMax ∧
    Reference.reissuing.blocks[0]? = some ⟨[1], 1⟩ ∧
    ∃ index' final, prepareKey [2] 1 Reference.reissuing = .ok ⟨keyOf [0], [0]⟩ index' ∧
      rollbackKey ⟨keyOf [0], [0]⟩ index' = .ok () final ∧ final.blocks[0]? = none := by
  have hprepare := eq_ok_of_outcome (show outcome (prepareKey [2] 1 Reference.reissuing) =
    .ok ⟨keyOf [0], [0]⟩ by decide +kernel)
  have hrollback := eq_ok_of_outcome (show outcome (rollbackKey ⟨keyOf [0], [0]⟩
    (finalState (prepareKey [2] 1 Reference.reissuing))) = .ok () by decide +kernel)
  exact ⟨⟨Reference.inverse_interned.byTokens_iff, Reference.inverse_interned.refs_ne⟩,
    by decide, by decide +kernel, _, _, hprepare, hrollback, by decide +kernel⟩

end PrefixIndex

end SeqCache
