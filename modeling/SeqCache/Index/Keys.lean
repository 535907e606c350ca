import SeqCache.Index.Interning

/-!
# Keys of prefixes

A key concatenates the identities of its blocks, eight bytes each, so a key determines
its blocks.  An exact lookup therefore finds an entry as soon as one is filed under the
blocks of the query.
-/

namespace SeqCache

open Machine Program Std

/-! ## Bytes -/

theorem length_toBeBytes (raw : ℕ) : (toBeBytes raw).length = 8 := by
  simp [toBeBytes]

theorem toBeBytes_injective {left right : ℕ} (hleft : left ≤ usizeMax) (hright : right ≤ usizeMax)
    (h : toBeBytes left = toBeBytes right) : left = right := by
  have hbyte : ∀ place < 8, left / 256 ^ (7 - place) % 256 = right / 256 ^ (7 - place) % 256 := by
    intro place hplace
    have hget := congrArg (fun bytes : List Byte => bytes[place]?.map Fin.val) h
    simpa [toBeBytes, hplace, Fin.ofNat] using hget
  have h0 := hbyte 0 (by omega)
  have h1 := hbyte 1 (by omega)
  have h2 := hbyte 2 (by omega)
  have h3 := hbyte 3 (by omega)
  have h4 := hbyte 4 (by omega)
  have h5 := hbyte 5 (by omega)
  have h6 := hbyte 6 (by omega)
  have h7 := hbyte 7 (by omega)
  unfold usizeMax at hleft hright
  norm_num at h0 h1 h2 h3 h4 h5 h6 h7
  omega

theorem length_keyOf (blocks : List TokenBlockId) : (keyOf blocks).length = 8 * blocks.length := by
  induction blocks with
  | nil => rfl
  | cons block rest ih =>
      rw [keyOf, List.flatMap_cons, List.length_append, length_toBeBytes, List.length_cons,
        Nat.mul_succ, ← ih, Nat.add_comm]
      rfl

theorem keyOf_injective {left right : List TokenBlockId} (hleft : ∀ block ∈ left, block ≤ usizeMax)
    (hright : ∀ block ∈ right, block ≤ usizeMax) (h : keyOf left = keyOf right) : left = right := by
  induction left generalizing right with
  | nil =>
      have hlength := congrArg List.length h
      rw [length_keyOf, length_keyOf, List.length_nil] at hlength
      exact (List.eq_nil_of_length_eq_zero (by omega)).symm
  | cons block rest ih =>
      cases right with
      | nil =>
          have hlength := congrArg List.length h
          rw [length_keyOf, length_keyOf, List.length_cons, List.length_nil] at hlength
          omega
      | cons other others =>
          simp only [keyOf, List.flatMap_cons] at h
          obtain ⟨hhead, hrest⟩ := List.append_inj h (by rw [length_toBeBytes, length_toBeBytes])
          rw [toBeBytes_injective (hleft block (by simp)) (hright other (by simp)) hhead,
            ih (fun id hmem => hleft id (List.mem_cons_of_mem _ hmem))
              (fun id hmem => hright id (List.mem_cons_of_mem _ hmem)) hrest]

/-! ## Blocks of a query -/

section Chunks

variable {α : Type} {size : ℕ}

theorem length_chunks (count : ℕ) (list : List α) : (chunks size count list).length = count := by
  induction count generalizing list with
  | zero => rfl
  | succ count ih => rw [chunks, List.length_cons, ih]

theorem length_of_mem_chunks {count : ℕ} {list chunk : List α} (hle : count * size ≤ list.length)
    (hmem : chunk ∈ chunks size count list) : chunk.length = size := by
  induction count generalizing list with
  | zero => simp [chunks] at hmem
  | succ count ih =>
      rw [Nat.succ_mul] at hle
      rw [chunks, List.mem_cons] at hmem
      rcases hmem with rfl | hmem
      · rw [List.length_take]
        omega
      · exact ih (by rw [List.length_drop]; omega) hmem

end Chunks

namespace PrefixIndex

variable {R : Runtime} {pageTokens : ℕ} {held : TokenBlockId → ℕ} {index : PrefixIndex R}

theorem knownBlocks_eq (h : Interned pageTokens held index) {blocks : List TokenBlockId}
    {query : List (List Token)} (hblocks : blocks.map index.tokensOf = query.map some) :
    index.knownBlocks query = blocks := by
  induction query generalizing blocks with
  | nil =>
      rw [List.map_nil, List.map_eq_nil_iff] at hblocks
      rw [hblocks]
      rfl
  | cons tokens rest ih =>
      cases blocks with
      | nil => cases hblocks
      | cons block blocks =>
          obtain ⟨hhead, hrest⟩ := List.cons.inj hblocks
          rw [knownBlocks, h.byTokens_iff.mpr hhead]
          simp only
          rw [ih hrest]

/-- An exact lookup reads the tree at the key of the blocks of the query. -/
theorem exact_eq (h : Interned pageTokens held index) {blocks : List TokenBlockId}
    {tokens : List Token} (hblocks : blocks.map index.tokensOf =
      (chunksExact pageTokens tokens).map some) (hne : blocks ≠ []) :
    index.exact tokens pageTokens = R.getBytes index.tree (keyOf blocks) := by
  have hlength : blocks.length = tokens.length / pageTokens := by
    have := congrArg List.length hblocks
    rwa [List.length_map, List.length_map, chunksExact, length_chunks] at this
  have hkey : (keyOf blocks).isEmpty = false := by
    rw [List.isEmpty_eq_false_iff]
    intro hnil
    have := congrArg List.length hnil
    rw [length_keyOf, List.length_nil] at this
    exact hne (List.eq_nil_of_length_eq_zero (by omega))
  unfold exact lookupKey
  rw [knownBlocks_eq h hblocks]
  simp only [hkey, Bool.false_eq_true, if_false, length_keyOf, hlength]
  rw [if_neg (by rw [Nat.mul_comm]; simp)]

end PrefixIndex

end SeqCache
