import SeqCache.Index.PrefixIndex

/-!
# The intern table

`Interned` says that blocks and token lists are in one-to-one correspondence and that
the count of every block is the number of references its holders have.  Interning the
blocks of a key adds references, releasing a list of blocks takes them back; releasing
what was interned restores the table.
-/

namespace SeqCache

open Machine Program Std

variable {R : Runtime}

namespace PrefixIndex

/-- The table is consistent with `held`, the number of references on each block. -/
structure Consistent (held : TokenBlockId → ℕ) (index : PrefixIndex R) : Prop where
  refs : ∀ (id : TokenBlockId) (record : BlockRecord), index.blocks[id]? = some record →
    record.prefixRefs = held id ∧ 0 < held id
  present : ∀ id : TokenBlockId, 0 < held id → ∃ record, index.blocks[id]? = some record
  find : ∀ (id : TokenBlockId) (record : BlockRecord), index.blocks[id]? = some record →
    index.byTokens[record.tokens]? = some id
  found : ∀ (tokens : List Token) (id : TokenBlockId), index.byTokens[tokens]? = some id →
    ∃ record, index.blocks[id]? = some record ∧ record.tokens = tokens
  below : ∀ (id : TokenBlockId) (record : BlockRecord), index.blocks[id]? = some record →
    id < index.nextBlockId
  bounded : index.nextBlockId ≤ usizeMax

/-- A consistent table of blocks of one page each. -/
structure Interned (pageTokens : ℕ) (held : TokenBlockId → ℕ) (index : PrefixIndex R) : Prop
    extends Consistent held index where
  length : ∀ (id : TokenBlockId) (record : BlockRecord), index.blocks[id]? = some record →
    record.tokens.length = pageTokens

/-- Tokens of an interned block. -/
def tokensOf (index : PrefixIndex R) (id : TokenBlockId) : Option (List Token) :=
  index.blocks[id]?.map BlockRecord.tokens

/-- Blocks that remain interned keep their tokens. -/
def Agrees (index index' : PrefixIndex R) : Prop :=
  ∀ (id : TokenBlockId) (tokens tokens' : List Token), index.tokensOf id = some tokens →
    index'.tokensOf id = some tokens' → tokens' = tokens

section Table

variable {held held' : TokenBlockId → ℕ} {index index' : PrefixIndex R}

theorem tokensOf_eq_some {id : TokenBlockId} {tokens : List Token} :
    index.tokensOf id = some tokens ↔
      ∃ record, index.blocks[id]? = some record ∧ record.tokens = tokens := by
  simp [tokensOf, Option.map_eq_some_iff]

theorem Consistent.byTokens_iff (h : Consistent held index) {tokens : List Token}
    {id : TokenBlockId} : index.byTokens[tokens]? = some id ↔ index.tokensOf id = some tokens := by
  rw [tokensOf_eq_some]
  constructor
  · exact h.found tokens id
  · rintro ⟨record, hrecord, rfl⟩
    exact h.find id record hrecord

theorem Consistent.isSome_iff (h : Consistent held index) (id : TokenBlockId) :
    (index.tokensOf id).isSome ↔ 0 < held id := by
  rw [tokensOf, Option.isSome_map]
  constructor
  · intro hsome
    obtain ⟨record, hrecord⟩ := Option.isSome_iff_exists.mp hsome
    exact (h.refs id record hrecord).2
  · intro hpos
    obtain ⟨record, hrecord⟩ := h.present id hpos
    simp [hrecord]

theorem Consistent.congr (h : Consistent held index) (heq : ∀ id, held' id = held id) :
    Consistent held' index := by
  rwa [funext heq]

/-- The table does not depend on the tree. -/
theorem Consistent.setTree (h : Consistent held index) (tree : R.Tree) :
    Consistent held { index with tree := tree } :=
  ⟨h.refs, h.present, h.find, h.found, h.below, h.bounded⟩

theorem Interned.congr {pageTokens : ℕ} (h : Interned pageTokens held index)
    (heq : ∀ id, held' id = held id) : Interned pageTokens held' index := by
  rwa [funext heq]

theorem Interned.setTree {pageTokens : ℕ} (h : Interned pageTokens held index) (tree : R.Tree) :
    Interned pageTokens held { index with tree := tree } :=
  ⟨h.toConsistent.setTree tree, h.length⟩

/-- Blocks of one page each remain when the others go. -/
theorem Consistent.interned {pageTokens : ℕ} (h : Consistent held' index')
    (hlength : ∀ id tokens, index'.tokensOf id = some tokens → tokens.length = pageTokens) :
    Interned pageTokens held' index' :=
  ⟨h, fun id record hrecord => hlength id record.tokens
    (by rw [tokensOf, hrecord, Option.map_some])⟩

theorem Interned.length_tokensOf {pageTokens : ℕ} (h : Interned pageTokens held index)
    {id : TokenBlockId} {tokens : List Token} (htokens : index.tokensOf id = some tokens) :
    tokens.length = pageTokens := by
  obtain ⟨record, hrecord, rfl⟩ := tokensOf_eq_some.mp htokens
  exact h.length id record hrecord

/-- Counts and tokens determine the table. -/
theorem Consistent.tables_eq (h : Consistent held index)
    (h' : Consistent held index') (hagrees : Agrees index index') :
    index'.blocks = index.blocks ∧ index'.byTokens = index.byTokens := by
  have htokens : ∀ id, index'.tokensOf id = index.tokensOf id := by
    intro id
    have hsome := (h.isSome_iff id).trans (h'.isSome_iff id).symm
    cases hold : index.tokensOf id with
    | none => simpa [hold] using hsome
    | some tokens =>
        obtain ⟨tokens', hnew⟩ := Option.isSome_iff_exists.mp (hsome.mp (by simp [hold]))
        rw [hnew, hagrees id tokens tokens' hold hnew]
  constructor
  · refine ExtTreeMap.ext_getElem? fun id => ?_
    have hid := htokens id
    unfold tokensOf at hid
    cases hold : index.blocks[id]? with
    | none => simpa [hold] using hid
    | some record =>
        rw [hold, Option.map_some, Option.map_eq_some_iff] at hid
        obtain ⟨record', hnew, heq⟩ := hid
        rw [hnew]
        have hrefs := (h.refs id record hold).1
        have hrefs' := (h'.refs id record' hnew).1
        cases record
        cases record'
        simp_all
  · refine ExtTreeMap.ext_getElem? fun tokens => ?_
    have hiff : ∀ id, index'.byTokens[tokens]? = some id ↔ index.byTokens[tokens]? = some id := by
      intro id
      rw [h.byTokens_iff, h'.byTokens_iff, htokens]
    cases hold : index.byTokens[tokens]? with
    | none =>
        cases hnew : index'.byTokens[tokens]? with
        | none => rfl
        | some id => simp [(hiff id).mp hnew] at hold
    | some id => exact (hiff id).mpr hold

/-- The new index holds nothing. -/
theorem interned_new {pageTokens : ℕ} :
    Interned pageTokens (fun _ => 0) (PrefixIndex.new : PrefixIndex R) := by
  refine ⟨?_, ?_⟩
  · constructor <;> simp [PrefixIndex.new]
  · simp [PrefixIndex.new]

end Table

/-! ## Releasing -/

section Release

variable {held : TokenBlockId → ℕ} {index : PrefixIndex R}

theorem tokensOf_putRefs {record : BlockRecord} {id : TokenBlockId} {refs : ℕ}
    (hrecord : index.blocks[id]? = some record) (other : TokenBlockId) :
    (index.putRefs id record refs).tokensOf other =
      if other = id ∧ refs = 0 then none else index.tokensOf other := by
  unfold putRefs
  by_cases hzero : refs = 0
  · simp only [hzero, if_true, tokensOf, getElem?_erase_eq, and_true]
    by_cases heq : other = id <;> simp [heq]
  · simp only [hzero, if_false, tokensOf, getElem?_insert_eq, and_false]
    by_cases heq : other = id
    · subst heq
      simp [hrecord]
    · simp [heq]

/-- Changing the count of an interned block. -/
theorem Consistent.setRefs (h : Consistent held index) {record : BlockRecord}
    {id : TokenBlockId} {refs : ℕ} (hrecord : index.blocks[id]? = some record) (hrefs : 0 < refs) :
    Consistent (Function.update held id refs)
      { index with blocks := index.blocks.insert id { record with prefixRefs := refs } } := by
  have hcases : ∀ (other : TokenBlockId) (found : BlockRecord),
      (index.blocks.insert id { record with prefixRefs := refs })[other]? = some found →
        (other = id ∧ found = { record with prefixRefs := refs }) ∨
          (other ≠ id ∧ index.blocks[other]? = some found) := by
    intro other found hfound
    rw [getElem?_insert_eq] at hfound
    split_ifs at hfound with heq
    · exact Or.inl ⟨heq, (Option.some.inj hfound).symm⟩
    · exact Or.inr ⟨heq, hfound⟩
  constructor
  · intro other found hfound
    rcases hcases other found hfound with ⟨rfl, rfl⟩ | ⟨hne, hfound⟩
    · simpa using hrefs
    · simpa [hne] using h.refs other found hfound
  · intro other hother
    by_cases heq : other = id
    · exact ⟨{ record with prefixRefs := refs }, by rw [getElem?_insert_eq, if_pos heq]⟩
    · obtain ⟨found, hfound⟩ := h.present other (by simpa [heq] using hother)
      exact ⟨found, by rw [getElem?_insert_eq, if_neg heq, hfound]⟩
  · intro other found hfound
    rcases hcases other found hfound with ⟨rfl, rfl⟩ | ⟨-, hfound⟩
    · exact h.find _ record hrecord
    · exact h.find other found hfound
  · intro tokens other hother
    obtain ⟨found, hfound, rfl⟩ := h.found tokens other hother
    by_cases heq : other = id
    · subst heq
      obtain rfl : record = found := by simpa [hrecord] using hfound
      exact ⟨{ record with prefixRefs := refs }, by rw [getElem?_insert_eq, if_pos rfl], rfl⟩
    · exact ⟨found, by rw [getElem?_insert_eq, if_neg heq, hfound], rfl⟩
  · intro other found hfound
    rcases hcases other found hfound with ⟨rfl, rfl⟩ | ⟨-, hfound⟩
    · exact h.below _ record hrecord
    · exact h.below other found hfound
  · exact h.bounded

/-- Removing an interned block. -/
theorem Consistent.collect (h : Consistent held index) {record : BlockRecord}
    {id : TokenBlockId} (hrecord : index.blocks[id]? = some record) :
    Consistent (Function.update held id 0)
      { index with
        blocks := index.blocks.erase id
        byTokens := index.byTokens.erase record.tokens } := by
  have hold : ∀ (other : TokenBlockId) (found : BlockRecord),
      (index.blocks.erase id)[other]? = some found →
        other ≠ id ∧ index.blocks[other]? = some found := by
    intro other found hfound
    rw [getElem?_erase_eq] at hfound
    split_ifs at hfound with heq
    exact ⟨heq, hfound⟩
  constructor
  · intro other found hfound
    obtain ⟨hne, hfound⟩ := hold other found hfound
    simpa [hne] using h.refs other found hfound
  · intro other hother
    have hne : other ≠ id := by
      rintro rfl
      simp at hother
    obtain ⟨found, hfound⟩ := h.present other (by simpa [hne] using hother)
    exact ⟨found, by simp [getElem?_erase_eq, hne, hfound]⟩
  · intro other found hfound
    obtain ⟨hne, hfound⟩ := hold other found hfound
    have hfind := h.find other found hfound
    have htokens : found.tokens ≠ record.tokens := by
      intro heq
      rw [heq, h.find id record hrecord] at hfind
      exact hne (Option.some.inj hfind).symm
    simpa only [getElem?_erase_eq, if_neg htokens] using hfind
  · intro tokens other hother
    simp only [getElem?_erase_eq] at hother ⊢
    split_ifs at hother with heq
    obtain ⟨found, hfound, rfl⟩ := h.found tokens other hother
    refine ⟨found, ?_, rfl⟩
    rw [if_neg, hfound]
    rintro rfl
    rw [hrecord] at hfound
    exact heq (congrArg BlockRecord.tokens (Option.some.inj hfound)).symm
  · intro other found hfound
    exact h.below other found (hold other found hfound).2
  · exact h.bounded

/-- Giving back one reference. -/
theorem Consistent.putRefs (h : Consistent held index) {record : BlockRecord}
    {id : TokenBlockId} (hrecord : index.blocks[id]? = some record) :
    Consistent (Function.update held id (held id - 1))
      (index.putRefs id record (record.prefixRefs - 1)) := by
  rw [(h.refs id record hrecord).1]
  unfold PrefixIndex.putRefs
  split_ifs with hzero
  · rw [hzero]
    exact h.collect hrecord
  · exact h.setRefs hrecord (Nat.pos_of_ne_zero hzero)

/-- Giving back one reference to each listed block succeeds as long as every block has
that many. -/
theorem releaseEach_spec (message : String) (blocks : List TokenBlockId)
    (h : Consistent held index) (hheld : ∀ id, blocks.count id ≤ held id) :
    ∃ index', releaseEach message blocks index = .ok () index' ∧
      Consistent (fun id => held id - blocks.count id) index' ∧
      index'.tree = index.tree ∧ index'.nextBlockId = index.nextBlockId ∧
      ∀ id tokens, index'.tokensOf id = some tokens → index.tokensOf id = some tokens := by
  induction blocks generalizing index held with
  | nil => exact ⟨index, rfl, by simpa using h, rfl, rfl, fun _ _ htokens => htokens⟩
  | cons id rest ih =>
      have hcount := hheld id
      rw [List.count_cons_self] at hcount
      obtain ⟨record, hrecord⟩ := h.present id (by omega)
      obtain ⟨hrefs, hpos⟩ := h.refs id record hrecord
      obtain ⟨index', hrun, hconsistent, htree, hnext, htokens⟩ := ih (h.putRefs hrecord) (by
        intro other
        have hother := hheld other
        rw [List.count_cons] at hother
        by_cases heq : other = id
        · subst heq
          rw [beq_self_eq_true, if_pos rfl] at hother
          rw [Function.update_self]
          omega
        · simpa [heq, Ne.symm heq] using hother)
      refine ⟨index', ?_, ?_, ?_, ?_, ?_⟩
      · rw [releaseEach, get_bind_run, hrecord, okOr_some, pure_bind_run,
          checkedSub_of_le (by omega), okOr_some, pure_bind_run, modify_bind_run]
        exact hrun
      · refine hconsistent.congr fun other => ?_
        rw [List.count_cons]
        by_cases heq : other = id
        · subst heq
          rw [beq_self_eq_true, if_pos rfl, Function.update_self]
          omega
        · simp [heq, Ne.symm heq]
      · rw [htree]
        unfold PrefixIndex.putRefs
        split_ifs <;> rfl
      · rw [hnext]
        unfold PrefixIndex.putRefs
        split_ifs <;> rfl
      · intro other tokens hother
        have hmiddle := htokens other tokens hother
        rw [tokensOf_putRefs hrecord] at hmiddle
        split_ifs at hmiddle
        exact hmiddle

end Release

/-! ## Interning -/

section Interning

variable {held : TokenBlockId → ℕ} {index : PrefixIndex R}

/-- Interning a block under a fresh identity. -/
theorem Consistent.intern (h : Consistent held index) {block : List Token}
    (hfresh : index.byTokens[block]? = none) (hroom : index.nextBlockId + 1 ≤ usizeMax) :
    Consistent (Function.update held index.nextBlockId 1)
      { index with
        nextBlockId := index.nextBlockId + 1
        byTokens := index.byTokens.insert block index.nextBlockId
        blocks := index.blocks.insert index.nextBlockId ⟨block, 1⟩ } := by
  have hne : ∀ (other : TokenBlockId) (found : BlockRecord), index.blocks[other]? = some found →
      other ≠ index.nextBlockId := fun other found hfound => (h.below other found hfound).ne
  have hcases : ∀ (other : TokenBlockId) (found : BlockRecord),
      (index.blocks.insert index.nextBlockId ⟨block, 1⟩)[other]? = some found →
        (other = index.nextBlockId ∧ found = ⟨block, 1⟩) ∨
          (other ≠ index.nextBlockId ∧ index.blocks[other]? = some found) := by
    intro other found hfound
    rw [getElem?_insert_eq] at hfound
    split_ifs at hfound with heq
    · exact Or.inl ⟨heq, (Option.some.inj hfound).symm⟩
    · exact Or.inr ⟨heq, hfound⟩
  constructor
  · intro other found hfound
    rcases hcases other found hfound with ⟨rfl, rfl⟩ | ⟨hother, hfound⟩
    · simp
    · simpa [hother] using h.refs other found hfound
  · intro other hother
    by_cases heq : other = index.nextBlockId
    · exact ⟨⟨block, 1⟩, by rw [getElem?_insert_eq, if_pos heq]⟩
    · obtain ⟨found, hfound⟩ := h.present other (by simpa [heq] using hother)
      exact ⟨found, by rw [getElem?_insert_eq, if_neg heq, hfound]⟩
  · intro other found hfound
    rcases hcases other found hfound with ⟨rfl, rfl⟩ | ⟨-, hfound⟩
    · simp only [getElem?_insert_eq, if_true]
    · have hfind := h.find other found hfound
      have htokens : found.tokens ≠ block := by
        rintro heq
        rw [heq, hfresh] at hfind
        cases hfind
      simpa only [getElem?_insert_eq, if_neg htokens] using hfind
  · intro tokens other hother
    simp only [getElem?_insert_eq] at hother
    split_ifs at hother with heq
    · obtain rfl := Option.some.inj hother
      exact ⟨⟨block, 1⟩, by rw [getElem?_insert_eq, if_pos rfl], heq.symm⟩
    · obtain ⟨found, hfound, rfl⟩ := h.found tokens other hother
      exact ⟨found, by rw [getElem?_insert_eq, if_neg (hne other found hfound), hfound], rfl⟩
  · intro other found hfound
    rcases hcases other found hfound with ⟨rfl, -⟩ | ⟨-, hfound⟩
    · exact Nat.lt_succ_self _
    · exact (h.below other found hfound).trans (Nat.lt_succ_self _)
  · exact hroom

/-- `index'` is `index` with one more reference to each block in `blocks`. -/
structure Adds (held : TokenBlockId → ℕ) (index : PrefixIndex R) (blocks : List TokenBlockId)
    (index' : PrefixIndex R) : Prop where
  consistent : Consistent (fun id => held id + blocks.count id) index'
  tree : index'.tree = index.tree
  tokens : ∀ id tokens, index.tokensOf id = some tokens → index'.tokensOf id = some tokens
  next : index.nextBlockId ≤ index'.nextBlockId
  new : ∀ id tokens, index'.tokensOf id = some tokens → index.tokensOf id = none →
    index.nextBlockId ≤ id

/-- `index'` is `index` except for the identities it has consumed. -/
structure SameTable (index index' : PrefixIndex R) : Prop where
  tree : index'.tree = index.tree
  blocks : index'.blocks = index.blocks
  byTokens : index'.byTokens = index.byTokens
  next : index.nextBlockId ≤ index'.nextBlockId
  bounded : index'.nextBlockId ≤ usizeMax

theorem Adds.refl (h : Consistent held index) :
    Adds held index [] index :=
  ⟨by simpa using h, rfl, fun _ _ htokens => htokens, le_rfl, fun id tokens htokens hnone => by
    simp [htokens] at hnone⟩

/-- Releasing the blocks that were interned restores the table. -/
theorem Adds.release {index' : PrefixIndex R} {blocks : List TokenBlockId}
    (h : Adds held index blocks index') (hconsistent : Consistent held index)
    (message : String) :
    ∃ index'', releaseEach message blocks index' = .ok () index'' ∧ SameTable index index'' ∧
      index''.nextBlockId = index'.nextBlockId := by
  obtain ⟨index'', hrun, hinterned'', htree, hnext, htokens⟩ :=
    releaseEach_spec message blocks h.consistent fun id => Nat.le_add_left _ _
  have hheld := hinterned''.congr fun id => (Nat.add_sub_cancel _ _).symm
  have hagrees : Agrees index index'' := by
    intro id tokens tokens' hold hnew
    have hmiddle := htokens id tokens' hnew
    rw [h.tokens id tokens hold] at hmiddle
    exact (Option.some.inj hmiddle).symm
  obtain ⟨hblocks, hbyTokens⟩ := hconsistent.tables_eq hheld hagrees
  exact ⟨index'', hrun, ⟨htree.trans h.tree, hblocks, hbyTokens, hnext ▸ h.next,
    hnext ▸ h.consistent.bounded⟩, hnext⟩

variable {index' : PrefixIndex R} {blocks : List TokenBlockId} {block : List Token}

theorem tokensOf_setRefs {record : BlockRecord} {id : TokenBlockId} {refs : ℕ}
    (hrecord : index.blocks[id]? = some record) (other : TokenBlockId) :
    ({ index with blocks := index.blocks.insert id { record with prefixRefs := refs } } :
      PrefixIndex R).tokensOf other = index.tokensOf other := by
  unfold tokensOf
  rw [getElem?_insert_eq]
  split_ifs with heq
  · simp [heq, hrecord]
  · rfl

/-- One more reference to a block that is already interned. -/
theorem Adds.again (h : Adds held index blocks index') {record : BlockRecord}
    {id : TokenBlockId} (hrecord : index'.blocks[id]? = some record) :
    Adds held index (blocks ++ [id])
      { index' with
        blocks := index'.blocks.insert id
          { record with prefixRefs := record.prefixRefs + 1 } } := by
  have hrefs := (h.consistent.refs id record hrecord).1
  refine ⟨?_, h.tree, ?_, h.next, ?_⟩
  · refine (h.consistent.setRefs hrecord (Nat.succ_pos _)).congr fun other => ?_
    by_cases heq : other = id
    · subst heq
      simp [hrefs, List.count_append, Nat.add_assoc]
    · simp [heq, List.count_append, Ne.symm heq]
  · intro other tokens hother
    rw [tokensOf_setRefs hrecord]
    exact h.tokens other tokens hother
  · intro other tokens hother
    rw [tokensOf_setRefs hrecord] at hother
    exact h.new other tokens hother

/-- The first reference to a block that was not interned. -/
theorem Adds.fresh (h : Adds held index blocks index')
    (hfresh : index'.byTokens[block]? = none) (hroom : index'.nextBlockId + 1 ≤ usizeMax) :
    Adds held index (blocks ++ [index'.nextBlockId])
        { index' with
          nextBlockId := index'.nextBlockId + 1
          byTokens := index'.byTokens.insert block index'.nextBlockId
          blocks := index'.blocks.insert index'.nextBlockId ⟨block, 1⟩ } ∧
      ∀ other tokens, index'.tokensOf other = some tokens → other ≠ index'.nextBlockId := by
  have hnone : index'.blocks[index'.nextBlockId]? = none := by
    cases hfound : index'.blocks[index'.nextBlockId]? with
    | none => rfl
    | some record => exact absurd (h.consistent.below _ record hfound) (lt_irrefl _)
  have hzero : held index'.nextBlockId + blocks.count index'.nextBlockId = 0 := by
    by_contra hpos
    obtain ⟨record, hrecord⟩ := h.consistent.present index'.nextBlockId (Nat.pos_of_ne_zero hpos)
    simp [hnone] at hrecord
  have hother : ∀ other tokens, index'.tokensOf other = some tokens →
      other ≠ index'.nextBlockId := by
    rintro other tokens htokens rfl
    simp [tokensOf, hnone] at htokens
  refine ⟨⟨?_, h.tree, ?_, h.next.trans (Nat.le_succ _), ?_⟩, hother⟩
  · refine (h.consistent.intern hfresh hroom).congr fun other => ?_
    by_cases heq : other = index'.nextBlockId
    · subst heq
      rw [Function.update_self, List.count_append, List.count_singleton_self]
      omega
    · simp [heq, List.count_append, Ne.symm heq]
  · intro other tokens htokens
    have hold := h.tokens other tokens htokens
    simp only [tokensOf, getElem?_insert_eq, if_neg (hother other tokens hold)]
    exact hold
  · intro other tokens htokens hnew
    simp only [tokensOf, getElem?_insert_eq] at htokens
    split_ifs at htokens with heq
    · exact heq ▸ h.next
    · exact h.new other tokens htokens hnew

/-- An interned block whose count has room is counted once more. -/
theorem internBlocks_again {record : BlockRecord} {id : TokenBlockId}
    (hfind : index.byTokens[block]? = some id) (hrecord : index.blocks[id]? = some record)
    (hroom : record.prefixRefs + 1 ≤ usizeMax) (rest : List (List Token)) :
    internBlocks (block :: rest) blocks index =
      internBlocks rest (blocks ++ [id])
        { index with
          blocks := index.blocks.insert id
            { record with prefixRefs := record.prefixRefs + 1 } } := by
  simp only [internBlocks, get_bind_run, hfind, hrecord, okOr_some, pure_bind_run,
    checkedAdd_of_le hroom, modify_bind_run]

/-- A block that is not interned is given the next identity. -/
theorem internBlocks_fresh (hfind : index.byTokens[block]? = none)
    (hroom : index.nextBlockId + 1 ≤ usizeMax) (rest : List (List Token)) :
    internBlocks (block :: rest) blocks index =
      internBlocks rest (blocks ++ [index.nextBlockId])
        { index with
          nextBlockId := index.nextBlockId + 1
          byTokens := index.byTokens.insert block index.nextBlockId
          blocks := index.blocks.insert index.nextBlockId ⟨block, 1⟩ } := by
  simp only [internBlocks, get_bind_run, hfind, checkedAdd_of_le hroom, modify_bind_run]

/-- A count without room fails the key, and what was interned for it is released. -/
theorem Adds.overflows (h : Adds held index blocks index') (hconsistent : Consistent held index)
    {record : BlockRecord} {id : TokenBlockId} (hfind : index'.byTokens[block]? = some id)
    (hrecord : index'.blocks[id]? = some record)
    (hfull : checkedAdd record.prefixRefs 1 = none) (rest : List (List Token)) :
    ∃ index'', internBlocks (block :: rest) blocks index' =
      .error (.error .arithmeticOverflow) index'' ∧ SameTable index index'' := by
  obtain ⟨index'', hrun, hsame, -⟩ := h.release hconsistent "prepared token block remains interned"
  refine ⟨index'', ?_, hsame⟩
  simp only [internBlocks, get_bind_run, hfind, hrecord, okOr_some, pure_bind_run, hfull,
    releaseBlocks]
  rw [bind_ok hrun, throw_run]

/-- So does a new block for which there is no identity. -/
theorem Adds.exhausts (h : Adds held index blocks index') (hconsistent : Consistent held index)
    (hfind : index'.byTokens[block]? = none) (hfull : checkedAdd index'.nextBlockId 1 = none)
    (rest : List (List Token)) :
    ∃ index'', internBlocks (block :: rest) blocks index' =
      .error (.error (.idExhausted "token block")) index'' ∧ SameTable index index'' := by
  obtain ⟨index'', hrun, hsame, -⟩ := h.release hconsistent "prepared token block remains interned"
  refine ⟨index'', ?_, hsame⟩
  simp only [internBlocks, get_bind_run, hfind, hfull, releaseBlocks]
  rw [bind_ok hrun, throw_run]

/-- Interning the blocks of a key either adds one reference to each, or fails and leaves
the table as it was before the first of them. -/
theorem internBlocks_cases (hconsistent : Consistent held index) (rest : List (List Token))
    (h : Adds held index blocks index') :
    (∃ error index'', internBlocks rest blocks index' = .error (.error error) index'' ∧
        SameTable index index'' ∧
        (error = .arithmeticOverflow ∨ error = .idExhausted "token block")) ∨
      ∃ ids index'', internBlocks rest blocks index' = .ok (blocks ++ ids) index'' ∧
        Adds held index (blocks ++ ids) index'' ∧
        (∀ id tokens, index'.tokensOf id = some tokens → index''.tokensOf id = some tokens) ∧
        ids.map index''.tokensOf = rest.map some := by
  induction rest generalizing blocks index' with
  | nil => exact Or.inr ⟨[], index', by simp [internBlocks, pure_run], by simpa using h, by simp,
      by simp⟩
  | cons block rest ih =>
      cases hfind : index'.byTokens[block]? with
      | some id =>
          obtain ⟨record, hrecord, rfl⟩ := h.consistent.found block id hfind
          cases hroom : checkedAdd record.prefixRefs 1 with
          | none =>
              obtain ⟨index'', hrun, hsame⟩ := h.overflows hconsistent hfind hrecord hroom rest
              exact Or.inl ⟨.arithmeticOverflow, index'', hrun, hsame, Or.inl rfl⟩
          | some refs =>
              rw [internBlocks_again hfind hrecord (checkedAdd_eq_some.mp hroom).1 rest]
              rcases ih (h.again hrecord) with herror | ⟨ids, index'', hok, hext, hkeep, hids⟩
              · exact Or.inl herror
              · rw [List.append_assoc] at hok hext
                refine Or.inr ⟨[id] ++ ids, index'', hok, hext, ?_, ?_⟩
                · intro other tokens hother
                  apply hkeep
                  rw [tokensOf_setRefs hrecord]
                  exact hother
                · have hid := hkeep id record.tokens
                    (by
                      rw [tokensOf_setRefs hrecord, tokensOf_eq_some]
                      exact ⟨record, hrecord, rfl⟩)
                  simp [hid, hids]
      | none =>
          cases hroom : checkedAdd index'.nextBlockId 1 with
          | none =>
              obtain ⟨index'', hrun, hsame⟩ := h.exhausts hconsistent hfind hroom rest
              exact Or.inl ⟨.idExhausted "token block", index'', hrun, hsame, Or.inr rfl⟩
          | some next =>
              obtain ⟨hbound, rfl⟩ := checkedAdd_eq_some.mp hroom
              rw [internBlocks_fresh hfind hbound rest]
              obtain ⟨hext, hother⟩ := h.fresh hfind hbound
              rcases ih hext with herror | ⟨ids, index'', hok, hext, hkeep, hids⟩
              · exact Or.inl herror
              · rw [List.append_assoc] at hok hext
                refine Or.inr ⟨[index'.nextBlockId] ++ ids, index'', hok, hext, ?_, ?_⟩
                · intro other tokens htokens
                  apply hkeep
                  simp only [tokensOf, getElem?_insert_eq, if_neg (hother other tokens htokens)]
                  exact htokens
                · have hid := hkeep index'.nextBlockId block
                    (by simp [tokensOf])
                  simp [hid, hids]

/-- A table of blocks of one page each, with one more reference to each block in `blocks`. -/
structure Extends (pageTokens : ℕ) (held : TokenBlockId → ℕ) (index : PrefixIndex R)
    (blocks : List TokenBlockId) (index' : PrefixIndex R) : Prop
    extends Adds held index blocks index' where
  length : ∀ (id : TokenBlockId) (record : BlockRecord), index'.blocks[id]? = some record →
    record.tokens.length = pageTokens

theorem Extends.interned {pageTokens : ℕ} (h : Extends pageTokens held index blocks index') :
    Interned pageTokens (fun id => held id + blocks.count id) index' :=
  ⟨h.consistent, h.length⟩

/-- Interning blocks of one page each either adds one reference to each, or fails and leaves
the table as it was. -/
theorem internBlocks_spec {pageTokens : ℕ} (hinterned : Interned pageTokens held index)
    (rest : List (List Token)) (hlength : ∀ block ∈ rest, block.length = pageTokens) :
    (∃ error index', internBlocks rest [] index = .error (.error error) index' ∧
        SameTable index index' ∧
        (error = .arithmeticOverflow ∨ error = .idExhausted "token block")) ∨
      ∃ ids index', internBlocks rest [] index = .ok ids index' ∧
        Extends pageTokens held index ids index' ∧ ids.map index'.tokensOf = rest.map some := by
  have hconsistent := hinterned.toConsistent
  rcases internBlocks_cases hconsistent rest (.refl hconsistent) with
    hfails | ⟨ids, index', hrun, hadds, -, hids⟩
  · exact Or.inl hfails
  rw [List.nil_append] at hrun hadds
  refine Or.inr ⟨ids, index', hrun, ⟨hadds, fun id record hrecord => ?_⟩, hids⟩
  have htokens : index'.tokensOf id = some record.tokens := by
    rw [tokensOf, hrecord, Option.map_some]
  cases hold : index.tokensOf id with
  | some tokens =>
      have hkept := hadds.tokens id tokens hold
      rw [htokens, Option.some.injEq] at hkept
      rw [hkept]
      exact hinterned.length_tokensOf hold
  | none =>
      -- A block that is new is one of those interned.
      have hzero : ¬ 0 < held id := by
        rw [← hconsistent.isSome_iff, hold]
        exact Bool.false_ne_true
      have hheld := (hadds.consistent.refs id record hrecord).2
      have hmem : id ∈ ids := List.count_pos_iff.mp (by omega)
      have hblock : some record.tokens ∈ rest.map some := by
        rw [← hids, ← htokens]
        exact List.mem_map_of_mem hmem
      obtain ⟨block, hblock, heq⟩ := List.mem_map.mp hblock
      rw [← Option.some.inj heq]
      exact hlength block hblock

/-- A key whose blocks are all interned already needs no new identity. -/
theorem internBlocks_known (hconsistent : Consistent held index) (rest : List (List Token))
    (hknown : ∀ block ∈ rest, ∃ id, index.byTokens[block]? = some id ∧
      held id + rest.length ≤ usizeMax) (blocks : List TokenBlockId) :
    ∃ ids index', internBlocks rest blocks index = .ok ids index' := by
  induction rest generalizing held index blocks with
  | nil => exact ⟨blocks, index, rfl⟩
  | cons block rest ih =>
      obtain ⟨id, hfind, hroom⟩ := hknown block (by simp)
      obtain ⟨record, hrecord, rfl⟩ := hconsistent.found block id hfind
      have hrefs := (hconsistent.refs id record hrecord).1
      rw [List.length_cons] at hroom
      have hknown' : ∀ block ∈ rest, ∃ other, index.byTokens[block]? = some other ∧
          Function.update held id (record.prefixRefs + 1) other + rest.length ≤ usizeMax := by
        intro block hmem
        obtain ⟨other, hother, hbound⟩ := hknown block (List.mem_cons_of_mem _ hmem)
        refine ⟨other, hother, ?_⟩
        rw [List.length_cons] at hbound
        rw [Function.update_apply]
        split_ifs <;> omega
      obtain ⟨ids, index', hrun⟩ := ih
        (hconsistent.setRefs hrecord (Nat.succ_pos record.prefixRefs)) hknown' (blocks ++ [id])
      refine ⟨ids, index', ?_⟩
      rw [← hrun]
      exact internBlocks_again hfind hrecord (by omega) rest

/-! ### The counts of a key -/

/-- References on the block of `tokens`, none unless it is interned. -/
def countOf (index : PrefixIndex R) (tokens : List Token) : ℕ :=
  (index.byTokens[tokens]?.bind (index.blocks[·]?)).elim 0 BlockRecord.prefixRefs

/-- Every block of `rest` can be counted once more for each time it occurs. -/
def CountsFit (index : PrefixIndex R) (rest : List (List Token)) : Prop :=
  ∀ block ∈ rest, index.countOf block + rest.count block ≤ usizeMax

instance (index : PrefixIndex R) (rest : List (List Token)) : Decidable (index.CountsFit rest) :=
  List.decidableBAll _ _

theorem countOf_again (h : Consistent held index) {record : BlockRecord} {id : TokenBlockId}
    {refs : ℕ} (hrecord : index.blocks[id]? = some record) (tokens : List Token) :
    ({ index with blocks := index.blocks.insert id { record with prefixRefs := refs } } :
      PrefixIndex R).countOf tokens =
        if tokens = record.tokens then refs else index.countOf tokens := by
  unfold countOf
  split_ifs with heq
  · subst heq
    simp [h.find id record hrecord, getElem?_insert_eq]
  · cases hfind : index.byTokens[tokens]? with
    | none => rfl
    | some other =>
        have hne : other ≠ id := by
          rintro rfl
          obtain ⟨found, hfound, rfl⟩ := h.found tokens other hfind
          rw [hrecord] at hfound
          exact heq (congrArg BlockRecord.tokens (Option.some.inj hfound)).symm
        simp only [Option.bind_some, getElem?_insert_eq, if_neg hne]

theorem countOf_fresh (h : Consistent held index) (tokens : List Token) :
    ({ index with
      nextBlockId := index.nextBlockId + 1
      byTokens := index.byTokens.insert block index.nextBlockId
      blocks := index.blocks.insert index.nextBlockId ⟨block, 1⟩ } : PrefixIndex R).countOf tokens =
        if tokens = block then 1 else index.countOf tokens := by
  unfold countOf
  simp only [getElem?_insert_eq]
  split_ifs with heq
  · simp
  · cases hfind : index.byTokens[tokens]? with
    | none => rfl
    | some other =>
        obtain ⟨found, hfound, -⟩ := h.found tokens other hfind
        simp only [Option.bind_some, if_neg (h.below other found hfound).ne]

/-- Counting the first block once leaves the counts of the rest with the same room. -/
theorem countsFit_cons {rest : List (List Token)}
    (hrefs : ∀ tokens, index'.countOf tokens =
      index.countOf tokens + if tokens = block then 1 else 0)
    (hroom : index'.countOf block ≤ usizeMax) :
    CountsFit index (block :: rest) ↔ CountsFit index' rest := by
  have hcount : ∀ tokens, index.countOf tokens + (block :: rest).count tokens =
      index'.countOf tokens + rest.count tokens := by
    intro tokens
    rw [hrefs, List.count_cons]
    by_cases heq : tokens = block
    · subst heq
      rw [beq_self_eq_true, if_pos rfl, if_pos rfl]
      omega
    · rw [if_neg heq, if_neg (by simpa using Ne.symm heq)]
      omega
  constructor
  · intro hfit tokens hmem
    rw [← hcount]
    exact hfit tokens (List.mem_cons_of_mem _ hmem)
  · intro hfit tokens hmem
    rw [hcount]
    by_cases hrest : tokens ∈ rest
    · exact hfit tokens hrest
    · obtain rfl : tokens = block := (List.mem_cons.mp hmem).resolve_right hrest
      rw [List.count_eq_zero.mpr hrest]
      exact hroom

/-- The counts of a key that was interned had room, those of one that overflowed had not. -/
theorem internBlocks_counts (hconsistent : Consistent held index) (rest : List (List Token))
    (h : Adds held index blocks index') :
    (∀ ids index'', internBlocks rest blocks index' = .ok ids index'' →
        CountsFit index' rest) ∧
      ∀ index'', internBlocks rest blocks index' = .error (.error .arithmeticOverflow) index'' →
        ¬ CountsFit index' rest := by
  induction rest generalizing blocks index' with
  | nil =>
      refine ⟨fun _ _ _ block hmem => absurd hmem List.not_mem_nil, fun index'' hrun => ?_⟩
      rw [internBlocks, pure_run] at hrun
      cases hrun
  | cons block rest ih =>
      cases hfind : index'.byTokens[block]? with
      | some id =>
          obtain ⟨record, hrecord, rfl⟩ := h.consistent.found block id hfind
          have hrefs : index'.countOf record.tokens = record.prefixRefs := by
            simp [countOf, hfind, hrecord]
          cases hroom : checkedAdd record.prefixRefs 1 with
          | none =>
              obtain ⟨final, hrun, -⟩ := h.overflows hconsistent hfind hrecord hroom rest
              rw [hrun]
              refine ⟨fun _ _ hok => (by cases hok), fun _ _ hfit => ?_⟩
              have hblock := hfit record.tokens List.mem_cons_self
              rw [hrefs, List.count_cons_self] at hblock
              rw [checkedAdd_of_le (by omega)] at hroom
              cases hroom
          | some refs =>
              obtain ⟨hbound, rfl⟩ := checkedAdd_eq_some.mp hroom
              rw [internBlocks_again hfind hrecord hbound rest, countsFit_cons]
              · exact ih (h.again hrecord)
              · intro tokens
                rw [countOf_again h.consistent hrecord]
                split_ifs with heq
                · rw [heq, hrefs]
                · rfl
              · rw [countOf_again h.consistent hrecord, if_pos rfl]
                exact hbound
      | none =>
          cases hroom : checkedAdd index'.nextBlockId 1 with
          | none =>
              obtain ⟨final, hrun, -⟩ := h.exhausts hconsistent hfind hroom rest
              rw [hrun]
              exact ⟨fun _ _ hok => (by cases hok), fun _ hover => (by cases hover)⟩
          | some next =>
              obtain ⟨hbound, rfl⟩ := checkedAdd_eq_some.mp hroom
              rw [internBlocks_fresh hfind hbound rest, countsFit_cons]
              · exact ih (h.fresh hfind hbound).1
              · intro tokens
                rw [countOf_fresh h.consistent]
                split_ifs with heq
                · simp [heq, countOf, hfind]
                · rfl
              · rw [countOf_fresh h.consistent, if_pos rfl]
                decide

end Interning

end PrefixIndex

end SeqCache
