import SeqCache.Index.Keys

/-!
# Keys and token lists

A key stands for the tokens of its blocks.  Keys nest as byte strings exactly when their token
lists nest, as long as every block is interned; so what the tree finds as the longest stored
prefix of a key is the longest stored prefix of the tokens.
-/

namespace SeqCache

open Machine Program Std

/-! ## Nested keys -/

theorem keyOf_append (left right : List TokenBlockId) :
    keyOf (left ++ right) = keyOf left ++ keyOf right := List.flatMap_append

/-- Keys nest as their blocks do. -/
theorem keyOf_isPrefix {left right : List TokenBlockId} (hleft : ∀ block ∈ left, block ≤ usizeMax)
    (hright : ∀ block ∈ right, block ≤ usizeMax) :
    keyOf left <+: keyOf right ↔ left <+: right := by
  constructor
  · intro h
    have hlength := h.length_le
    rw [length_keyOf, length_keyOf] at hlength
    have hsplit : keyOf right =
        keyOf (right.take left.length) ++ keyOf (right.drop left.length) := by
      rw [← keyOf_append, List.take_append_drop]
    have hkey : keyOf left = keyOf (right.take left.length) := by
      apply (List.prefix_of_prefix_length_le h (hsplit ▸ List.prefix_append _ _) ?_).eq_of_length
      · rw [length_keyOf, length_keyOf, List.length_take]
        omega
      · rw [length_keyOf, length_keyOf, List.length_take]
        omega
    rw [keyOf_injective hleft (fun block hmem => hright block (List.mem_of_mem_take hmem)) hkey]
    exact List.take_prefix _ _
  · rintro ⟨rest, rfl⟩
    exact ⟨keyOf rest, (keyOf_append left rest).symm⟩

/-! ## Chunks -/

section Chunks

variable {α : Type} {size : ℕ}

theorem chunksExact_of_le {list : List α} (hpos : 0 < size) (hle : size ≤ list.length) :
    chunksExact size list = list.take size :: chunksExact size (list.drop size) := by
  rw [chunksExact, chunksExact, List.length_drop,
    show list.length / size = (list.length - size) / size + 1 from Nat.div_eq_sub_div hpos hle,
    chunks]

theorem chunksExact_of_lt {list : List α} (hlt : list.length < size) :
    chunksExact size list = [] := by
  rw [chunksExact, Nat.div_eq_of_lt hlt, chunks]

theorem length_of_mem_chunksExact {list chunk : List α} (hmem : chunk ∈ chunksExact size list) :
    chunk.length = size :=
  length_of_mem_chunks (Nat.div_mul_le_self _ _) hmem

/-- Complete chunks make up an initial segment exactly when they come first. -/
theorem isPrefix_chunksExact {segment : List (List α)} {list : List α} (hpos : 0 < size)
    (hsegment : ∀ chunk ∈ segment, chunk.length = size) :
    segment <+: chunksExact size list ↔ segment.flatten <+: list := by
  induction segment generalizing list with
  | nil => simp
  | cons chunk rest ih =>
      have hchunk := hsegment chunk List.mem_cons_self
      have ih' : ∀ list, rest <+: chunksExact size list ↔ rest.flatten <+: list :=
        fun _ => ih fun other hmem => hsegment other (List.mem_cons_of_mem _ hmem)
      rw [List.flatten_cons]
      by_cases hle : size ≤ list.length
      · have hsplit : ∀ segment, list.take size ++ segment <+: list ↔
            segment <+: list.drop size := by
          intro segment
          conv_lhs => rw [← List.take_append_drop size list]
          rw [List.take_left' (List.length_take_of_le hle), List.prefix_append_right_inj]
        rw [chunksExact_of_le hpos hle, List.cons_prefix_cons, ih']
        constructor
        · rintro ⟨rfl, hrest⟩
          exact (hsplit _).mpr hrest
        · intro h
          have hhead : chunk = list.take size := by
            rw [← hchunk]
            exact List.prefix_iff_eq_take.mp ((List.prefix_append _ _).trans h)
          rw [hhead] at h
          exact ⟨hhead, (hsplit _).mp h⟩
      · rw [chunksExact_of_lt (Nat.lt_of_not_le hle), List.prefix_nil]
        refine iff_of_false (List.cons_ne_nil _ _) fun h => hle ?_
        have hlength := h.length_le
        rw [List.length_append] at hlength
        omega

theorem length_flatten_eq {segment : List (List α)}
    (hsegment : ∀ chunk ∈ segment, chunk.length = size) :
    segment.flatten.length = segment.length * size := by
  rw [List.length_flatten, List.map_congr_left hsegment, List.map_const', List.sum_replicate,
    smul_eq_mul]

/-- A list of complete chunks is made up of them. -/
theorem flatten_chunksExact {list : List α} (hpos : 0 < size) (hdvd : size ∣ list.length) :
    (chunksExact size list).flatten = list := by
  apply ((isPrefix_chunksExact hpos fun _ => length_of_mem_chunksExact).mp
    (List.prefix_refl _)).eq_of_length
  rw [length_flatten_eq fun _ => length_of_mem_chunksExact, chunksExact, length_chunks,
    Nat.div_mul_cancel hdvd]

/-- Complete chunks are found again in what they make up. -/
theorem chunksExact_flatten {segment : List (List α)} (hpos : 0 < size)
    (hsegment : ∀ chunk ∈ segment, chunk.length = size) :
    chunksExact size segment.flatten = segment := by
  apply Eq.symm
  apply ((isPrefix_chunksExact hpos hsegment).mpr (List.prefix_refl _)).eq_of_length
  rw [chunksExact, length_chunks, length_flatten_eq hsegment, Nat.mul_div_cancel _ hpos]

end Chunks

/-! ## Blocks and their tokens -/

namespace PrefixIndex

variable {R : Runtime} {pageTokens : ℕ} {held : TokenBlockId → ℕ} {index : PrefixIndex R}
variable {blocks : List TokenBlockId}

/-- The known blocks of a query start with those whose tokens it starts with. -/
theorem isPrefix_knownBlocks (h : Consistent held index) {query : List (List Token)} :
    blocks <+: index.knownBlocks query ↔ blocks.map index.tokensOf <+: query.map some := by
  induction query generalizing blocks with
  | nil => rw [knownBlocks, List.map_nil, List.prefix_nil, List.prefix_nil, List.map_eq_nil_iff]
  | cons tokens rest ih =>
      cases blocks with
      | nil => exact iff_of_true List.nil_prefix List.nil_prefix
      | cons block others =>
          rw [knownBlocks, List.map_cons, List.map_cons, List.cons_prefix_cons, ← h.byTokens_iff]
          cases index.byTokens[tokens]? with
          | some id =>
              rw [List.cons_prefix_cons, ih, Option.some_inj, eq_comm]
          | none =>
              exact iff_of_false (fun hnil => List.cons_ne_nil _ _ (List.prefix_nil.mp hnil))
                fun hfound => Option.some_ne_none _ hfound.1.symm

/-- Tokens of a list of blocks. -/
def textOf (index : PrefixIndex R) (blocks : List TokenBlockId) : List Token :=
  (blocks.filterMap index.tokensOf).flatten

theorem filterMap_tokensOf {query : List (List Token)}
    (h : blocks.map index.tokensOf = query.map some) : blocks.filterMap index.tokensOf = query := by
  have hfilter := congrArg (List.filterMap id) h
  rwa [List.filterMap_map, List.filterMap_map, Function.id_comp, Function.id_comp,
    List.filterMap_some] at hfilter

/-- Every block is interned. -/
def Known (index : PrefixIndex R) (blocks : List TokenBlockId) : Prop :=
  ∀ block ∈ blocks, ∃ tokens, index.tokensOf block = some tokens

theorem Known.map_tokensOf (h : index.Known blocks) :
    blocks.map index.tokensOf = (blocks.filterMap index.tokensOf).map some := by
  induction blocks with
  | nil => rfl
  | cons block rest ih =>
      obtain ⟨tokens, htokens⟩ := h block List.mem_cons_self
      rw [List.map_cons, List.filterMap_cons_some htokens, List.map_cons, htokens,
        ih fun other hmem => h other (List.mem_cons_of_mem _ hmem)]

theorem known_knownBlocks (h : Consistent held index) (query : List (List Token)) :
    index.Known (index.knownBlocks query) := by
  intro block hmem
  have hstarts := (isPrefix_knownBlocks h).mp (List.prefix_refl (index.knownBlocks query))
  obtain ⟨tokens, -, htokens⟩ :=
    List.mem_map.mp (hstarts.subset (List.mem_map_of_mem (f := index.tokensOf) hmem))
  exact ⟨tokens, htokens.symm⟩

theorem Known.le_usizeMax (hknown : index.Known blocks) (h : Consistent held index) :
    ∀ block ∈ blocks, block ≤ usizeMax := by
  intro block hmem
  obtain ⟨tokens, htokens⟩ := hknown block hmem
  obtain ⟨record, hrecord, -⟩ := tokensOf_eq_some.mp htokens
  exact (h.below block record hrecord).le.trans h.bounded

theorem Interned.length_of_mem (h : Interned pageTokens held index) :
    ∀ tokens ∈ blocks.filterMap index.tokensOf, tokens.length = pageTokens := by
  intro tokens hmem
  obtain ⟨block, -, htokens⟩ := List.mem_filterMap.mp hmem
  exact h.length_tokensOf htokens

/-- A key comes first in the key of a query exactly when its tokens come first in the query. -/
theorem isPrefix_lookupKey (h : Interned pageTokens held index) (hpos : 0 < pageTokens)
    (hknown : index.Known blocks) {tokens : List Token} :
    keyOf blocks <+: keyOf (index.knownBlocks (chunksExact pageTokens tokens)) ↔
      index.textOf blocks <+: tokens := by
  have hquery := known_knownBlocks h.toConsistent (chunksExact pageTokens tokens)
  rw [keyOf_isPrefix (hknown.le_usizeMax h.toConsistent) (hquery.le_usizeMax h.toConsistent),
    isPrefix_knownBlocks h.toConsistent, hknown.map_tokensOf, textOf,
    ← isPrefix_chunksExact hpos h.length_of_mem]
  refine ⟨fun hstarts => ?_, fun hstarts => hstarts.map some⟩
  obtain ⟨segment, hsegment, heq⟩ := List.prefix_map_iff.mp hstarts
  rwa [List.map_injective_iff.mpr (Option.some_injective _) heq]

/-- Known blocks are determined by their tokens. -/
theorem textOf_injective (h : Interned pageTokens held index) (hpos : 0 < pageTokens)
    {left right : List TokenBlockId} (hleft : index.Known left) (hright : index.Known right)
    (heq : index.textOf left = index.textOf right) : left = right := by
  have hchunks := congrArg (chunksExact pageTokens) heq
  rw [textOf, textOf, chunksExact_flatten hpos h.length_of_mem,
    chunksExact_flatten hpos h.length_of_mem] at hchunks
  rw [← knownBlocks_eq h hleft.map_tokensOf, hchunks, knownBlocks_eq h hright.map_tokensOf]

theorem length_textOf (h : Interned pageTokens held index) (hknown : index.Known blocks) :
    (index.textOf blocks).length = blocks.length * pageTokens := by
  have hlength := congrArg List.length hknown.map_tokensOf
  rw [List.length_map, List.length_map] at hlength
  rw [textOf, length_flatten_eq h.length_of_mem, hlength]

end PrefixIndex
end SeqCache
