import SeqCache.Core.Program
import SeqCache.Backend.Contract

/-!
# Content-addressed prefix index

Page-sized token blocks are interned under fresh identities, and a retained prefix is
filed in the radix tree under the big-endian concatenation of its block identities.
Blocks are counted by the prepared or committed keys that hold them and collected when
the last one lets go.
-/

namespace SeqCache

open Machine Program Std

abbrev Token := UInt32

/-- Identity of an interned block, issued in increasing order and never reused. -/
abbrev TokenBlockId := ℕ

/-- Identity of a retained entry, issued in increasing order and never reused. -/
abbrev PrefixEntryId := ℕ

abbrev PrefixKey := List Byte

/-- Invalid immutable cache geometry or capacity. -/
inductive ConfigError
  | zeroPageTokens
  | zeroPageBytes
  | zeroManagedBytes
  | pageExceedsManagedBytes
  | emergencyCapacityExceedsManagedBytes
  | snapshotLimitExceedsManagedBytes
  | managedBytesExceedMetricRange
  | capacityOverflow
  deriving DecidableEq

/-- Sequence-cache operation failure. -/
inductive CacheError (Error : Type)
  | config (error : ConfigError)
  | staleSequence
  | stalePage
  | stalePrefix
  | invalidPosition
  | invalidTokenPrefix
  | snapshotCapacity
  | prefixCapacity
  | arithmeticOverflow
  | idExhausted (kind : String)
  | invariant (detail : String)
  | appendPending
  | noAppendPending
  | appendReservationMismatch
  | appendBatchSizeMismatch
  | backend (error : Error)
  deriving DecidableEq

/-- How a call ends early: with an error, or by a panic (a failed `expect`, an index out
of range, an unchecked subtraction below zero). -/
inductive Failure (Error : Type)
  | error (error : CacheError Error)
  | panic (message : String)
  deriving DecidableEq

/-- One interned token block and the number of prefix keys referencing it. -/
structure BlockRecord where
  tokens : List Token
  prefixRefs : ℕ
  deriving DecidableEq

/-- A key whose blocks have been interned but not yet committed to the tree. -/
structure PreparedKey where
  key : PrefixKey
  blocks : List TokenBlockId
  deriving DecidableEq

structure PrefixIndex (R : Runtime) where
  tree : R.Tree
  byTokens : ExtTreeMap (List Token) TokenBlockId
  blocks : ExtTreeMap TokenBlockId BlockRecord
  nextBlockId : ℕ

/-- `slice::chunks_exact`: the first `count` consecutive runs of `size` elements. -/
def chunks {α : Type} (size : ℕ) : ℕ → List α → List (List α)
  | 0, _ => []
  | count + 1, list => list.take size :: chunks size count (list.drop size)

def chunksExact {α : Type} (size : ℕ) (list : List α) : List (List α) :=
  chunks size (list.length / size) list

/-- `u64::to_be_bytes`. -/
def toBeBytes (raw : ℕ) : List Byte :=
  (List.range 8).map fun place => Fin.ofNat 256 (raw / 256 ^ (7 - place))

def keyOf (blocks : List TokenBlockId) : PrefixKey := blocks.flatMap toBeBytes

namespace PrefixIndex

variable {R : Runtime}

abbrev IndexM (R : Runtime) := EStateM (Failure R.Error) (PrefixIndex R)

def new : PrefixIndex R := ⟨R.newTree, ∅, ∅, 0⟩

/-- Number of interned token blocks currently referenced by entries. -/
def blockCount (index : PrefixIndex R) : ℕ := index.blocks.size

/-- Identities of the longest leading run of interned blocks. -/
def knownBlocks (index : PrefixIndex R) : List (List Token) → List TokenBlockId
  | [] => []
  | block :: rest =>
      match index.byTokens[block]? with
      | some id => id :: index.knownBlocks rest
      | none => []

/-- Lookup key over the known leading blocks, `none` when the first one is unknown. -/
def lookupKey (index : PrefixIndex R) (tokens : List Token) (pageTokens : ℕ) :
    Option PrefixKey :=
  let key := keyOf (index.knownBlocks (chunksExact pageTokens tokens))
  if key.isEmpty then none else some key

/-- Entry whose key is the longest prefix match of `key`, if any. -/
def longest (index : PrefixIndex R) (key : PrefixKey) : Option PrefixEntryId :=
  R.longestPrefixValueBytes index.tree key

/-- Entry whose key covers exactly `tokens`, if any. -/
def exact (index : PrefixIndex R) (tokens : List Token) (pageTokens : ℕ) :
    Option PrefixEntryId :=
  match index.lookupKey tokens pageTokens with
  | none => none
  | some key =>
      if key.length ≠ tokens.length / pageTokens * 8 then none
      else R.getBytes index.tree key

/-- Store the new reference count of a block, collecting the block at zero. -/
def putRefs (index : PrefixIndex R) (id : TokenBlockId) (record : BlockRecord) (refs : ℕ) :
    PrefixIndex R :=
  if refs = 0 then
    { index with
      blocks := index.blocks.erase id
      byTokens := index.byTokens.erase record.tokens }
  else
    { index with blocks := index.blocks.insert id { record with prefixRefs := refs } }

/-- Give back one reference to each listed block.  `message` is the panic raised for a
block that is not interned. -/
def releaseEach (message : String) : List TokenBlockId → IndexM R Unit
  | [] => pure ()
  | id :: rest => do
      let index ← get
      let record ← okOr index.blocks[id]? (Failure.panic message)
      let refs ← okOr (checkedSub record.prefixRefs 1)
        (Failure.panic "attempt to subtract with overflow")
      modify fun index => index.putRefs id record refs
      releaseEach message rest

def releaseBlocks (blocks : List TokenBlockId) : IndexM R Unit :=
  releaseEach "prepared token block remains interned" blocks

/-- The loop of `prepareKey`: intern the remaining blocks after those in `blocks`. -/
def internBlocks : List (List Token) → List TokenBlockId → IndexM R (List TokenBlockId)
  | [], blocks => pure blocks
  | block :: rest, blocks => do
      let index ← get
      match index.byTokens[block]? with
      | some id =>
          let record ← okOr index.blocks[id]?
            (Failure.panic "token lookup points at interned record")
          match checkedAdd record.prefixRefs 1 with
          | none =>
              releaseBlocks blocks
              throw (.error .arithmeticOverflow)
          | some refs =>
              modify fun index =>
                { index with blocks := index.blocks.insert id { record with prefixRefs := refs } }
              internBlocks rest (blocks ++ [id])
      | none =>
          match checkedAdd index.nextBlockId 1 with
          | none =>
              releaseBlocks blocks
              throw (.error (.idExhausted "token block"))
          | some nextBlockId =>
              modify fun index =>
                { index with
                  nextBlockId := nextBlockId
                  byTokens := index.byTokens.insert block index.nextBlockId
                  blocks := index.blocks.insert index.nextBlockId ⟨block, 1⟩ }
              internBlocks rest (blocks ++ [index.nextBlockId])

/-- Intern the blocks of `tokens` and build a key without publishing it.  There is no block of
no tokens: for `pageTokens = 0` the source panics, and the cache never asks for it. -/
def prepareKey (tokens : List Token) (pageTokens : ℕ) : IndexM R PreparedKey := do
  let blocks ← internBlocks (chunksExact pageTokens tokens) []
  pure ⟨keyOf blocks, blocks⟩

/-- Drop a prepared key which was never committed. -/
def rollbackKey (prepared : PreparedKey) : IndexM R Unit := releaseBlocks prepared.blocks

/-- Publish a prepared key, pointing lookups at `entry`. -/
def commitKey (prepared : PreparedKey) (entry : PrefixEntryId) : IndexM R Unit :=
  modify fun index => { index with tree := R.insertK index.tree prepared.key entry }

/-- Remove a committed key and release its block references. -/
def remove (key : PrefixKey) (blocks : List TokenBlockId) : IndexM R Unit := do
  modify fun index => { index with tree := R.removeK index.tree key }
  releaseEach "prefix token block remains interned" blocks

end PrefixIndex

end SeqCache
