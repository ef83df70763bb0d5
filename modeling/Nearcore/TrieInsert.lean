import Nearcore.TrieNode

/-!
# `Trie::insert`

`insert` walks down from the root along the key.  Each turn of its loop takes
the node at the current handle and either stores the final node (`done`),
stores the node with the slot of the next child left open and moves to that
child (`descend`), or replaces the node by a branch and looks at it again
(`again`, the source's `path.pop(); continue`).  On the way down every stored
node counts the memory of all its children but the one descended into; the
pass back up over `path` adds the new child's memory usage.

`InsertStepCase` lists what one turn can do, with the guards of each case;
`insertStep_cases` proves that every successful turn is one of them.  Later
proofs argue from the cases and never unfold `insertStep`.
-/

namespace Nearcore.Trie

/-- What one turn of the loop of `insert` ends with. -/
inductive InsertStep where
  | done (node : TrieNodeWithSize)
  | descend (crumb : Crumb) (child : TrieNodeWithSize) (partialKey : NibbleSlice)
  | again (node : TrieNodeWithSize)

/-- The memory usage that `calc_memory_usage_and_store` stores with a node
that leaves the slot of `oldChild` open. -/
def calcMemoryUsage (childrenMemoryUsage : ℕ) (newNode : TrieNode)
    (oldChild : Option TrieNodeWithSize) : TrieM ℕ :=
  subtract (childrenMemoryUsage + newNode.memoryUsageDirect)
    ((oldChild.map TrieNodeWithSize.memoryUsage).getD 0)

/-- A leaf whose key shares no nibble with the inserted one becomes a branch:
holding the leaf's value if the leaf's key is empty, and else the rest of the
leaf below the leaf's first nibble. -/
def leafToBranch (existingKey : NibbleSlice) (existingValue : ValueHandle) : TrieNodeWithSize :=
  if existingKey.isEmpty then
    let branchNode := TrieNode.branch (fun _ => none) (some existingValue)
    .mk branchNode branchNode.memoryUsageDirect
  else
    let newLeaf := TrieNode.leaf ((existingKey.mid 1).encoded true) existingValue
    let memoryUsage := newLeaf.memoryUsageDirect
    let branchNode := TrieNode.branch
      (Function.update (fun _ => none) (existingKey.at 0) (some (.inMemory (.mk newLeaf memoryUsage))))
      none
    .mk branchNode (branchNode.memoryUsageDirect + memoryUsage)

/-- An extension whose key shares no nibble with the inserted one becomes a
branch, with the extension's child (or the extension shortened by one
nibble) below the first nibble of its key.  An empty key panics on `at(0)`. -/
def extensionToBranch (existingKey : NibbleSlice) (child : NodeHandle)
    (childrenMemoryUsage : ℕ) : Option TrieNodeWithSize := do
  let idx ← existingKey.at? 0
  let (child, childMemoryUsage) :=
    if existingKey.len = 1 then (child, childrenMemoryUsage)
    else
      let child := TrieNode.extension ((existingKey.mid 1).encoded false) child
      let childMemoryUsage := childrenMemoryUsage + child.memoryUsageDirect
      (NodeHandle.inMemory (.mk child childMemoryUsage), childMemoryUsage)
  let branchNode := TrieNode.branch (Function.update (fun _ => none) idx (some child)) none
  return .mk branchNode (branchNode.memoryUsageDirect + childMemoryUsage)

/-- One turn of the loop of `Trie::insert`, at `node` with the rest of the key
`partialKey`. -/
def insertStep (storage : TrieStorage) (value : List UInt8) (node : TrieNodeWithSize)
    (partialKey : NibbleSlice) : TrieM InsertStep := do
  let childrenMemoryUsage ← subtract node.memoryUsage node.node.memoryUsageDirect
  match node.node with
  | .empty =>
      let leafNode := TrieNode.leaf (partialKey.encoded true) (.inMemory value)
      return .done (.mk leafNode leafNode.memoryUsageDirect)
  | .branch children existingValue =>
      if partialKey.isEmpty then
        -- the key ends here: the value goes into the branch
        existingValue.forM (deleteValue storage)
        let newNode := TrieNode.branch children (some (.inMemory value))
        return .done (.mk newNode (childrenMemoryUsage + newNode.memoryUsageDirect))
      else
        let index := partialKey.at 0
        let child ← childToMutable storage (children index)
        let memoryUsage ←
          calcMemoryUsage childrenMemoryUsage (.branch children existingValue) (some child)
        return .descend (.branch children index existingValue memoryUsage) child (partialKey.mid 1)
  | .leaf key existingValue =>
      let some (existingKey, _) := NibbleSlice.fromEncoded key | throw .panic
      let commonPrefix := partialKey.commonPrefix existingKey
      if commonPrefix = existingKey.len ∧ commonPrefix = partialKey.len then
        -- the same key: the value is replaced
        deleteValue storage existingValue
        let node := TrieNode.leaf key (.inMemory value)
        return .done (.mk node node.memoryUsageDirect)
      else if commonPrefix = 0 then
        return .again (leafToBranch existingKey existingValue)
      else if commonPrefix = existingKey.len then
        let branchNode := TrieNode.branch (fun _ => none) (some existingValue)
        let child := TrieNodeWithSize.mk branchNode branchNode.memoryUsageDirect
        let newNode := TrieNode.extension (existingKey.encoded false) (.inMemory child)
        return .descend (.extension (existingKey.encoded false) newNode.memoryUsageDirect) child
          (partialKey.mid commonPrefix)
      else
        -- partially shared prefix: an extension over the rest of the leaf
        let leafNode := TrieNode.leaf ((existingKey.mid commonPrefix).encoded true) existingValue
        let child := TrieNodeWithSize.mk leafNode leafNode.memoryUsageDirect
        let key' := partialKey.encodedLeftmost commonPrefix false
        let node := TrieNode.extension key' (.inMemory child)
        return .descend (.extension key' node.memoryUsageDirect) child (partialKey.mid commonPrefix)
  | .extension key child =>
      let some (existingKey, _) := NibbleSlice.fromEncoded key | throw .panic
      let commonPrefix := partialKey.commonPrefix existingKey
      if commonPrefix = 0 then
        let some branchNode := extensionToBranch existingKey child childrenMemoryUsage
          | throw .panic
        return .again branchNode
      else if commonPrefix = existingKey.len then
        let child ← child.toMutable storage
        let node := TrieNode.extension key (.inMemory child)
        return .descend (.extension key node.memoryUsageDirect) child (partialKey.mid commonPrefix)
      else
        -- partially shared prefix: a shorter extension over a shorter extension
        let childNode := TrieNode.extension ((existingKey.mid commonPrefix).encoded false) child
        let childMemoryUsage := childrenMemoryUsage + childNode.memoryUsageDirect
        let child := TrieNodeWithSize.mk childNode childMemoryUsage
        let key' := existingKey.encodedLeftmost commonPrefix false
        let node := TrieNode.extension key' (.inMemory child)
        return .descend (.extension key' node.memoryUsageDirect) child (partialKey.mid commonPrefix)

end Nearcore.Trie

namespace Nearcore.Trie

/-- What one successful turn of the loop of `insert` does, by the kind of the
node and the guards of the source. -/
inductive InsertStepCase (storage : TrieStorage) (value : List UInt8) (partialKey : NibbleSlice)
    (memory : NodesStorage) : TrieNodeWithSize → InsertStep → NodesStorage → Prop
  | empty (memoryUsage : ℕ) :
      InsertStepCase storage value partialKey memory (.mk .empty memoryUsage)
        (.done (.mk (.leaf (partialKey.encoded true) (.inMemory value))
          (TrieNode.leaf (partialKey.encoded true) (.inMemory value)).memoryUsageDirect)) memory
  | branchValue (children : Children NodeHandle) (existingValue : Option ValueHandle)
      (memoryUsage : ℕ) (memory' : NodesStorage)
      (hmemory : (TrieNode.branch children existingValue).memoryUsageDirect ≤ memoryUsage)
      (hkey : partialKey.isEmpty = true)
      (hdelete : (existingValue.forM (deleteValue storage)).run memory = .ok ((), memory')) :
      InsertStepCase storage value partialKey memory (.mk (.branch children existingValue) memoryUsage)
        (.done (.mk (.branch children (some (.inMemory value)))
          (memoryUsage - (TrieNode.branch children existingValue).memoryUsageDirect +
            (TrieNode.branch children (some (.inMemory value))).memoryUsageDirect))) memory'
  | branchChild (children : Children NodeHandle) (existingValue : Option ValueHandle)
      (memoryUsage : ℕ) (child : TrieNodeWithSize) (memory' : NodesStorage)
      (hmemory : (TrieNode.branch children existingValue).memoryUsageDirect ≤ memoryUsage)
      (hkey : partialKey.isEmpty = false)
      (hload : (childToMutable storage (children (partialKey.at 0))).run memory = .ok (child, memory'))
      (hchild : child.memoryUsage ≤ memoryUsage) :
      InsertStepCase storage value partialKey memory (.mk (.branch children existingValue) memoryUsage)
        (.descend (.branch children (partialKey.at 0) existingValue (memoryUsage - child.memoryUsage))
          child (partialKey.mid 1)) memory'
  | leafEqual (key : List UInt8) (existingValue : ValueHandle) (memoryUsage : ℕ)
      (existingKey : NibbleSlice) (isLeaf : Bool) (memory' : NodesStorage)
      (hmemory : (TrieNode.leaf key existingValue).memoryUsageDirect ≤ memoryUsage)
      (hkey : NibbleSlice.fromEncoded key = some (existingKey, isLeaf))
      (hcommon : partialKey.commonPrefix existingKey = existingKey.len ∧
        partialKey.commonPrefix existingKey = partialKey.len)
      (hdelete : (deleteValue storage existingValue).run memory = .ok ((), memory')) :
      InsertStepCase storage value partialKey memory (.mk (.leaf key existingValue) memoryUsage)
        (.done (.mk (.leaf key (.inMemory value))
          (TrieNode.leaf key (.inMemory value)).memoryUsageDirect)) memory'
  | leafBranch (key : List UInt8) (existingValue : ValueHandle) (memoryUsage : ℕ)
      (existingKey : NibbleSlice) (isLeaf : Bool)
      (hmemory : (TrieNode.leaf key existingValue).memoryUsageDirect ≤ memoryUsage)
      (hkey : NibbleSlice.fromEncoded key = some (existingKey, isLeaf))
      (hcommon : ¬(partialKey.commonPrefix existingKey = existingKey.len ∧
        partialKey.commonPrefix existingKey = partialKey.len))
      (hzero : partialKey.commonPrefix existingKey = 0) :
      InsertStepCase storage value partialKey memory (.mk (.leaf key existingValue) memoryUsage)
        (.again (leafToBranch existingKey existingValue)) memory
  | leafExtension (key : List UInt8) (existingValue : ValueHandle) (memoryUsage : ℕ)
      (existingKey : NibbleSlice) (isLeaf : Bool)
      (hmemory : (TrieNode.leaf key existingValue).memoryUsageDirect ≤ memoryUsage)
      (hkey : NibbleSlice.fromEncoded key = some (existingKey, isLeaf))
      (hcommon : ¬(partialKey.commonPrefix existingKey = existingKey.len ∧
        partialKey.commonPrefix existingKey = partialKey.len))
      (hzero : partialKey.commonPrefix existingKey ≠ 0)
      (hlen : partialKey.commonPrefix existingKey = existingKey.len) :
      InsertStepCase storage value partialKey memory (.mk (.leaf key existingValue) memoryUsage)
        (.descend (.extension (existingKey.encoded false)
            (TrieNode.extension (existingKey.encoded false)
              (.inMemory (.mk (.branch (fun _ => none) (some existingValue))
                (TrieNode.branch (fun _ => none) (some existingValue)).memoryUsageDirect))).memoryUsageDirect)
          (.mk (.branch (fun _ => none) (some existingValue))
            (TrieNode.branch (fun _ => none) (some existingValue)).memoryUsageDirect)
          (partialKey.mid (partialKey.commonPrefix existingKey))) memory
  | leafSplit (key : List UInt8) (existingValue : ValueHandle) (memoryUsage : ℕ)
      (existingKey : NibbleSlice) (isLeaf : Bool)
      (hmemory : (TrieNode.leaf key existingValue).memoryUsageDirect ≤ memoryUsage)
      (hkey : NibbleSlice.fromEncoded key = some (existingKey, isLeaf))
      (hcommon : ¬(partialKey.commonPrefix existingKey = existingKey.len ∧
        partialKey.commonPrefix existingKey = partialKey.len))
      (hzero : partialKey.commonPrefix existingKey ≠ 0)
      (hlen : partialKey.commonPrefix existingKey ≠ existingKey.len) :
      InsertStepCase storage value partialKey memory (.mk (.leaf key existingValue) memoryUsage)
        (.descend (.extension (partialKey.encodedLeftmost (partialKey.commonPrefix existingKey) false)
            (TrieNode.extension (partialKey.encodedLeftmost (partialKey.commonPrefix existingKey) false)
              (.inMemory (.mk (.leaf ((existingKey.mid (partialKey.commonPrefix existingKey)).encoded true)
                  existingValue)
                (TrieNode.leaf ((existingKey.mid (partialKey.commonPrefix existingKey)).encoded true)
                  existingValue).memoryUsageDirect))).memoryUsageDirect)
          (.mk (.leaf ((existingKey.mid (partialKey.commonPrefix existingKey)).encoded true) existingValue)
            (TrieNode.leaf ((existingKey.mid (partialKey.commonPrefix existingKey)).encoded true)
              existingValue).memoryUsageDirect)
          (partialKey.mid (partialKey.commonPrefix existingKey))) memory
  | extensionBranch (key : List UInt8) (child : NodeHandle) (memoryUsage : ℕ)
      (existingKey : NibbleSlice) (isLeaf : Bool) (branchNode : TrieNodeWithSize)
      (hmemory : (TrieNode.extension key child).memoryUsageDirect ≤ memoryUsage)
      (hkey : NibbleSlice.fromEncoded key = some (existingKey, isLeaf))
      (hzero : partialKey.commonPrefix existingKey = 0)
      (hbranch : extensionToBranch existingKey child
        (memoryUsage - (TrieNode.extension key child).memoryUsageDirect) = some branchNode) :
      InsertStepCase storage value partialKey memory (.mk (.extension key child) memoryUsage)
        (.again branchNode) memory
  | extensionChild (key : List UInt8) (child : NodeHandle) (memoryUsage : ℕ)
      (existingKey : NibbleSlice) (isLeaf : Bool) (child' : TrieNodeWithSize)
      (memory' : NodesStorage)
      (hmemory : (TrieNode.extension key child).memoryUsageDirect ≤ memoryUsage)
      (hkey : NibbleSlice.fromEncoded key = some (existingKey, isLeaf))
      (hzero : partialKey.commonPrefix existingKey ≠ 0)
      (hlen : partialKey.commonPrefix existingKey = existingKey.len)
      (hload : (child.toMutable storage).run memory = .ok (child', memory')) :
      InsertStepCase storage value partialKey memory (.mk (.extension key child) memoryUsage)
        (.descend (.extension key (TrieNode.extension key (.inMemory child')).memoryUsageDirect) child'
          (partialKey.mid (partialKey.commonPrefix existingKey))) memory'
  | extensionSplit (key : List UInt8) (child : NodeHandle) (memoryUsage : ℕ)
      (existingKey : NibbleSlice) (isLeaf : Bool)
      (hmemory : (TrieNode.extension key child).memoryUsageDirect ≤ memoryUsage)
      (hkey : NibbleSlice.fromEncoded key = some (existingKey, isLeaf))
      (hzero : partialKey.commonPrefix existingKey ≠ 0)
      (hlen : partialKey.commonPrefix existingKey ≠ existingKey.len) :
      InsertStepCase storage value partialKey memory (.mk (.extension key child) memoryUsage)
        (.descend (.extension (existingKey.encodedLeftmost (partialKey.commonPrefix existingKey) false)
            (TrieNode.extension (existingKey.encodedLeftmost (partialKey.commonPrefix existingKey) false)
              (.inMemory (.mk (.extension ((existingKey.mid (partialKey.commonPrefix existingKey)).encoded false)
                  child)
                (memoryUsage - (TrieNode.extension key child).memoryUsageDirect +
                  (TrieNode.extension ((existingKey.mid (partialKey.commonPrefix existingKey)).encoded false)
                    child).memoryUsageDirect)))).memoryUsageDirect)
          (.mk (.extension ((existingKey.mid (partialKey.commonPrefix existingKey)).encoded false) child)
            (memoryUsage - (TrieNode.extension key child).memoryUsageDirect +
              (TrieNode.extension ((existingKey.mid (partialKey.commonPrefix existingKey)).encoded false)
                child).memoryUsageDirect))
          (partialKey.mid (partialKey.commonPrefix existingKey))) memory

theorem insertStep_cases {storage : TrieStorage} {value : List UInt8} {node : TrieNodeWithSize}
    {partialKey : NibbleSlice} {memory memory' : NodesStorage} {r : InsertStep}
    (h : (insertStep storage value node partialKey).run memory = .ok (r, memory')) :
    InsertStepCase storage value partialKey memory node r memory' := by
  unfold insertStep at h
  rw [run_bind_eq_ok] at h
  obtain ⟨childrenMemoryUsage, memory₁, hsub, h⟩ := h
  rw [run_subtract_eq_ok] at hsub
  obtain ⟨hmemory, rfl, rfl⟩ := hsub
  obtain ⟨n, memoryUsage⟩ := node
  cases n with
  | empty =>
      simp only [TrieNodeWithSize.node_mk, run_pure, Except.ok.injEq, Prod.mk.injEq] at h
      obtain ⟨rfl, rfl⟩ := h
      exact .empty memoryUsage
  | branch children existingValue =>
      simp only [TrieNodeWithSize.node_mk, TrieNodeWithSize.memoryUsage_mk] at h hmemory
      split at h
      · next hkey =>
          rw [run_bind_eq_ok] at h
          obtain ⟨u, memory₂, hdelete, h⟩ := h
          simp only [run_pure, Except.ok.injEq, Prod.mk.injEq] at h
          obtain ⟨rfl, rfl⟩ := h
          exact .branchValue children existingValue memoryUsage _ hmemory hkey hdelete
      · next hkey =>
          rw [run_bind_eq_ok] at h
          obtain ⟨child, memory₂, hload, h⟩ := h
          rw [run_bind_eq_ok] at h
          obtain ⟨mu, memory₃, hcalc, h⟩ := h
          simp only [run_pure, Except.ok.injEq, Prod.mk.injEq] at h
          obtain ⟨rfl, rfl⟩ := h
          unfold calcMemoryUsage at hcalc
          rw [run_subtract_eq_ok] at hcalc
          obtain ⟨hchild, rfl, rfl⟩ := hcalc
          have hsum : memoryUsage - (TrieNode.branch children existingValue).memoryUsageDirect +
              (TrieNode.branch children existingValue).memoryUsageDirect = memoryUsage := by omega
          simp only [Option.map_some, Option.getD_some, hsum] at hchild ⊢
          exact .branchChild children existingValue memoryUsage child _ hmemory
            (by simpa using hkey) hload hchild
  | leaf key existingValue =>
      simp only [TrieNodeWithSize.node_mk, TrieNodeWithSize.memoryUsage_mk] at h hmemory
      split at h
      · next _ existingKey isLeaf hkey =>
          split at h
          · next hcommon =>
              rw [run_bind_eq_ok] at h
              obtain ⟨u, memory₂, hdelete, h⟩ := h
              simp only [run_pure, Except.ok.injEq, Prod.mk.injEq] at h
              obtain ⟨rfl, rfl⟩ := h
              exact .leafEqual key existingValue memoryUsage existingKey isLeaf _ hmemory hkey
                hcommon hdelete
          · next hcommon =>
              split at h
              · next hzero =>
                  simp only [run_pure, Except.ok.injEq, Prod.mk.injEq] at h
                  obtain ⟨rfl, rfl⟩ := h
                  exact .leafBranch key existingValue memoryUsage existingKey isLeaf hmemory hkey
                    hcommon hzero
              · next hzero =>
                  split at h
                  · next hlen =>
                      simp only [run_pure, Except.ok.injEq, Prod.mk.injEq] at h
                      obtain ⟨rfl, rfl⟩ := h
                      exact .leafExtension key existingValue memoryUsage existingKey isLeaf hmemory
                        hkey hcommon hzero hlen
                  · next hlen =>
                      simp only [run_pure, Except.ok.injEq, Prod.mk.injEq] at h
                      obtain ⟨rfl, rfl⟩ := h
                      exact .leafSplit key existingValue memoryUsage existingKey isLeaf hmemory hkey
                        hcommon hzero hlen
      · simp only [run_throw, reduceCtorEq] at h
  | extension key child =>
      simp only [TrieNodeWithSize.node_mk, TrieNodeWithSize.memoryUsage_mk] at h hmemory
      split at h
      · next _ existingKey isLeaf hkey =>
          split at h
          · next hzero =>
              split at h
              · next _ branchNode hbranch =>
                  simp only [run_pure, Except.ok.injEq, Prod.mk.injEq] at h
                  obtain ⟨rfl, rfl⟩ := h
                  exact .extensionBranch key child memoryUsage existingKey isLeaf branchNode hmemory
                    hkey hzero hbranch
              · simp only [run_throw, reduceCtorEq] at h
          · next hzero =>
              split at h
              · next hlen =>
                  rw [run_bind_eq_ok] at h
                  obtain ⟨child', memory₂, hload, h⟩ := h
                  simp only [run_pure, Except.ok.injEq, Prod.mk.injEq] at h
                  obtain ⟨rfl, rfl⟩ := h
                  exact .extensionChild key child memoryUsage existingKey isLeaf child' _ hmemory hkey
                    hzero hlen hload
              · next hlen =>
                  simp only [run_pure, Except.ok.injEq, Prod.mk.injEq] at h
                  obtain ⟨rfl, rfl⟩ := h
                  exact .extensionSplit key child memoryUsage existingKey isLeaf hmemory hkey hzero
                    hlen
      · simp only [run_throw, reduceCtorEq] at h

end Nearcore.Trie

namespace Nearcore.Trie

/-! ## The loop -/

/-- Branches rank below the other nodes: a turn that ends in `again` turns a
leaf or an extension into a branch. -/
def insertRank : TrieNode → ℕ
  | .branch _ _ => 0
  | _ => 1

theorem insertRank_le_one (node : TrieNode) : insertRank node ≤ 1 := by
  cases node <;> simp [insertRank]

theorem insertRank_leafToBranch (existingKey : NibbleSlice) (existingValue : ValueHandle) :
    insertRank (leafToBranch existingKey existingValue).node = 0 := by
  unfold leafToBranch
  split <;> rfl

theorem insertRank_extensionToBranch {existingKey : NibbleSlice} {child : NodeHandle}
    {childrenMemoryUsage : ℕ} {branchNode : TrieNodeWithSize}
    (h : extensionToBranch existingKey child childrenMemoryUsage = some branchNode) :
    insertRank branchNode.node = 0 := by
  unfold extensionToBranch at h
  cases hidx : existingKey.at? 0 with
  | none => simp [hidx] at h
  | some idx =>
      simp only [hidx, Option.bind_eq_bind, Option.bind_some] at h
      split at h
      · cases h
        rfl
      · cases h
        rfl

section Termination

variable {storage : TrieStorage} {value : List UInt8} {node : TrieNodeWithSize}
  {partialKey : NibbleSlice} {memory memory' : NodesStorage}

/-- Every turn that descends shortens the rest of the key. -/
theorem InsertStepCase.len_lt {crumb : Crumb} {child : TrieNodeWithSize} {partialKey' : NibbleSlice}
    (h : InsertStepCase storage value partialKey memory node (.descend crumb child partialKey') memory') :
    partialKey'.len < partialKey.len := by
  have hle := partialKey.commonPrefix_le_len
  cases h with
  | branchChild _ _ _ _ _ _ hkey =>
      have := (NibbleSlice.isEmpty_eq_false_iff _).mp hkey
      simp only [NibbleSlice.len_mid]
      omega
  | leafExtension _ _ _ existingKey _ _ _ _ hzero =>
      have := hle existingKey
      simp only [NibbleSlice.len_mid]
      omega
  | leafSplit _ _ _ existingKey _ _ _ _ hzero =>
      have := hle existingKey
      simp only [NibbleSlice.len_mid]
      omega
  | extensionChild _ _ _ existingKey _ _ _ _ _ hzero =>
      have := hle existingKey
      simp only [NibbleSlice.len_mid]
      omega
  | extensionSplit _ _ _ existingKey _ _ _ hzero =>
      have := hle existingKey
      simp only [NibbleSlice.len_mid]
      omega

theorem insertStep_descend_len {crumb : Crumb} {child : TrieNodeWithSize} {partialKey' : NibbleSlice}
    (h : (insertStep storage value node partialKey).run memory =
      .ok (.descend crumb child partialKey', memory')) :
    partialKey'.len < partialKey.len :=
  (insertStep_cases h).len_lt

/-- A turn that ends in `again` turns a leaf or an extension into a branch. -/
theorem InsertStepCase.rank_lt {node' : TrieNodeWithSize}
    (h : InsertStepCase storage value partialKey memory node (.again node') memory') :
    insertRank node'.node < insertRank node.node := by
  cases h with
  | leafBranch =>
      rw [insertRank_leafToBranch]
      exact Nat.zero_lt_one
  | extensionBranch _ _ _ _ _ _ _ _ _ hbranch =>
      rw [insertRank_extensionToBranch hbranch]
      exact Nat.zero_lt_one

theorem insertStep_again_rank {node' : TrieNodeWithSize}
    (h : (insertStep storage value node partialKey).run memory = .ok (.again node', memory')) :
    insertRank node'.node < insertRank node.node :=
  (insertStep_cases h).rank_lt

end Termination

set_option linter.unusedVariables false in
/-- The loop of `Trie::insert`, from `node` with the rest of the key
`partialKey`, `path` holding the crumbs above it: the crumbs and the node it
stops at. -/
def insertLoop (storage : TrieStorage) (value : List UInt8) (path : List Crumb)
    (node : TrieNodeWithSize) (partialKey : NibbleSlice) (memory : NodesStorage) :
    Except Failure ((List Crumb × TrieNodeWithSize) × NodesStorage) :=
  match h : (insertStep storage value node partialKey).run memory with
  | .error e => .error e
  | .ok (.done node', memory') => .ok ((path, node'), memory')
  | .ok (.descend crumb child partialKey', memory') =>
      insertLoop storage value (crumb :: path) child partialKey' memory'
  | .ok (.again node', memory') => insertLoop storage value path node' partialKey memory'
termination_by 2 * partialKey.len + insertRank node.node
decreasing_by
  · have := insertStep_descend_len h
    have := insertRank_le_one child.node
    omega
  · have := insertStep_again_rank h
    omega

/-- `Trie::insert`: the loop down, then the pass back up the path. -/
def insert (storage : TrieStorage) (node : TrieNodeWithSize) (partialKey : NibbleSlice)
    (value : List UInt8) : TrieM TrieNodeWithSize := fun memory => do
  let ((path, node), memory) ← insertLoop storage value [] node partialKey memory
  return (path.foldl (fun child crumb => crumb.addChild child) node, memory)

/-- The runs of the loop of `insert`, turn by turn. -/
inductive InsertRun (storage : TrieStorage) (value : List UInt8) :
    List Crumb → TrieNodeWithSize → NibbleSlice → NodesStorage →
      List Crumb → TrieNodeWithSize → NodesStorage → Prop
  | done {path node partialKey memory node' memory'}
      (hstep : InsertStepCase storage value partialKey memory node (.done node') memory') :
      InsertRun storage value path node partialKey memory path node' memory'
  | descend {path node partialKey memory crumb child partialKey' memory' path'' node'' memory''}
      (hstep : InsertStepCase storage value partialKey memory node
        (.descend crumb child partialKey') memory')
      (hrun : InsertRun storage value (crumb :: path) child partialKey' memory' path'' node''
        memory'') :
      InsertRun storage value path node partialKey memory path'' node'' memory''
  | again {path node partialKey memory node' memory' path'' node'' memory''}
      (hstep : InsertStepCase storage value partialKey memory node (.again node') memory')
      (hrun : InsertRun storage value path node' partialKey memory' path'' node'' memory'') :
      InsertRun storage value path node partialKey memory path'' node'' memory''

theorem insertLoop_run {storage : TrieStorage} {value : List UInt8} {path path' : List Crumb}
    {node node' : TrieNodeWithSize} {partialKey : NibbleSlice} {memory memory' : NodesStorage}
    (h : insertLoop storage value path node partialKey memory = .ok ((path', node'), memory')) :
    InsertRun storage value path node partialKey memory path' node' memory' := by
  fun_induction insertLoop storage value path node partialKey memory with
  | case1 => simp at h
  | case2 path node partialKey memory node₁ memory₁ hstep =>
      simp only [Except.ok.injEq, Prod.mk.injEq] at h
      obtain ⟨⟨rfl, rfl⟩, rfl⟩ := h
      exact .done (insertStep_cases hstep)
  | case3 path node partialKey memory crumb child partialKey₁ memory₁ hstep ih =>
      exact .descend (insertStep_cases hstep) (ih h)
  | case4 path node partialKey memory node₁ memory₁ hstep ih =>
      exact .again (insertStep_cases hstep) (ih h)

end Nearcore.Trie
