import Nearcore.TrieDelete

/-!
# `flatten_nodes` and `Trie::update`

`Trie::update` loads the root, applies the changes one by one with `insert`
and `delete`, and then `flatten_nodes` writes every in-memory node back: in
post-order, children in index order and a branch's value after its children,
each node serialized with its memory usage, hashed, and counted once more in
the reference count changes, as every in-memory value is.  The source walks
the tree with an explicit stack of crumbs; the model recurses on the tree,
which visits and counts the nodes in the same order.  The changes are then
split by sign into insertions and deletions.
-/

namespace Nearcore.Trie

variable (hash : List UInt8 → CryptoHash)

/-- `flatten_value`: an in-memory value is counted under its hash. -/
def flattenValue : ValueHandle → TrieM ValueRef
  | .inMemory value => do
      let valueHash := hash value
      NodesStorage.addRefcount valueHash (.value value) 1
      return ⟨value.length.toUInt32, valueHash⟩
  | .hashAndSize value => return value

/-- The end of one turn of `flatten_nodes`: the node serialized, hashed and
counted.  `serialize(&mut buffer).unwrap()` panics on a key Borsh cannot
write, one of `2 ^ 32` bytes or more. -/
def storeRawNode (node : RawTrieNodeWithSize) : TrieM CryptoHash := do
  if node.node.KeysFit then
    let key := hash node.toBorsh
    NodesStorage.addRefcount key (.node node) 1
    return key
  else throw .panic

mutual

/-- `flatten_nodes` from one node: its hash once written. -/
def flattenNode : TrieNodeWithSize → TrieM CryptoHash
  | .mk .empty _ => return EMPTY_ROOT
  | .mk (.leaf key value) memoryUsage => do
      let value ← flattenValue hash value
      storeRawNode hash ⟨.leaf key value, memoryUsage⟩
  | .mk (.branch children value) memoryUsage => do
      let newChildren ← (List.finRange 16).foldlM
        (fun newChildren i => do
          let child ← flattenChild (children i)
          return Function.update newChildren i child)
        (fun _ => none)
      let newValue ← value.mapM (flattenValue hash)
      storeRawNode hash ⟨RawTrieNode.branch newChildren newValue, memoryUsage⟩
  | .mk (.extension key child) memoryUsage => do
      let child ← flattenHandle child
      storeRawNode hash ⟨.extension key child, memoryUsage⟩

def flattenHandle : NodeHandle → TrieM CryptoHash
  | .inMemory node => flattenNode node
  | .hash h => return h

def flattenChild : Option NodeHandle → TrieM (Option CryptoHash)
  | some child => some <$> flattenHandle child
  | none => return none

end

structure TrieRefcountChange where
  trieNodeOrValueHash : CryptoHash
  trieNodeOrValue : Stored
  rc : ℕ
  deriving DecidableEq

structure TrieChanges where
  oldRoot : CryptoHash
  newRoot : CryptoHash
  insertions : List TrieRefcountChange
  deletions : List TrieRefcountChange
  deriving DecidableEq

/-- `convert_to_insertions_and_deletions`, the changes in the order of their
hashes.  A deletion's count is `(-rc) as u32`, and negating the `i32` panics
on `i32::MIN`. -/
def convertToInsertionsAndDeletions (changes : BTreeMap CryptoHash (Stored × ℤ)) :
    Except Failure (List TrieRefcountChange × List TrieRefcountChange) :=
  if changes.entries.any fun (_, _, rc) => decide (rc < 0 ∧ ¬I32.InRange (-rc)) then .error .panic
  else
    .ok (changes.entries.filterMap fun (h, stored, rc) =>
        if 0 < rc then some ⟨h, stored, rc.toNat⟩ else none,
      changes.entries.filterMap fun (h, stored, rc) =>
        if rc < 0 then some ⟨h, stored, (-rc).toNat⟩ else none)

/-- One change of `Trie::update`: `Some` inserts or overwrites, `None` deletes. -/
def applyChange (storage : TrieStorage) (fuel : ℕ) (rootNode : TrieNodeWithSize) :
    List UInt8 × Option (List UInt8) → TrieM TrieNodeWithSize
  | (key, some value) => insert storage rootNode (NibbleSlice.new key) value
  | (key, none) => delete storage rootNode (NibbleSlice.new key) fuel

/-- The loop of `Trie::update`: the root moved to memory, then the changes
applied one by one. -/
def applyChanges (storage : TrieStorage) (root : CryptoHash)
    (changes : List (List UInt8 × Option (List UInt8))) (fuel : ℕ) :
    Except Failure (TrieNodeWithSize × NodesStorage) := do
  let (rootNode, memory) ← (moveNodeToMutable storage root).run NodesStorage.new
  (changes.foldlM (applyChange storage fuel) rootNode).run memory

/-- `Trie::update` of the trie at `root`, each walk of `delete` paid by `fuel`. -/
def update (storage : TrieStorage) (root : CryptoHash)
    (changes : List (List UInt8 × Option (List UInt8))) (fuel : ℕ) : Except Failure TrieChanges := do
  let (rootNode, memory) ← applyChanges storage root changes fuel
  let (newRoot, memory) ← (flattenNode hash rootNode).run memory
  let (insertions, deletions) ← convertToInsertionsAndDeletions memory.refcountChanges
  return ⟨root, newRoot, insertions, deletions⟩

/-- The storage once the insertions of an update are written; a hash already
stored keeps its contents. -/
def TrieStorage.applyInsertions (storage : TrieStorage) (insertions : List TrieRefcountChange) :
    TrieStorage := fun h =>
  (storage h).or ((insertions.find? fun change => change.trieNodeOrValueHash == h).map
    TrieRefcountChange.trieNodeOrValue)

end Nearcore.Trie
