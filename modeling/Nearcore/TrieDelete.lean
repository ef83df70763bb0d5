import Nearcore.TrieInsert

/-!
# `Trie::delete`, `fix_nodes` and `fix_extension_node`

`delete` walks down along the key like `insert`, leaving every node it passes
with the memory of the next child subtracted, and removes the value at the
end of the walk if there is one.  `fix_nodes` then goes back up the path:
it adds each new child's memory usage, drops in-memory empty children, turns
a branch left with no child into a leaf or nothing and a branch left with
one child and no value into an extension, and merges an extension with an
extension or a leaf below it (`fix_extension_node`).

The walk down can only stay at the same length of key under an extension
with an empty key, which no trie this code writes has; under such a node
whose child is itself in storage the source loops forever, so the model runs
the walk on fuel.
-/

namespace Nearcore.Trie

/-- What one turn of the loop of `delete` ends with. -/
inductive DeleteStep where
  | done (node : TrieNodeWithSize)
  | descend (crumb : Crumb) (child : TrieNodeWithSize) (partialKey : NibbleSlice)

/-- One turn of the loop of `Trie::delete`, at `node` with the rest of the key
`partialKey`. -/
def deleteStep (storage : TrieStorage) (node : TrieNodeWithSize) (partialKey : NibbleSlice) :
    TrieM DeleteStep := do
  let childrenMemoryUsage ← subtract node.memoryUsage node.node.memoryUsageDirect
  match node.node with
  | .empty => return .done .empty
  | .leaf key value =>
      let some (existingKey, _) := NibbleSlice.fromEncoded key | throw .panic
      if existingKey == partialKey then
        deleteValue storage value
        return .done .empty
      else
        let leafNode := TrieNode.leaf key value
        return .done (.mk leafNode leafNode.memoryUsageDirect)
  | .branch children value =>
      if partialKey.isEmpty then
        value.forM (deleteValue storage)
        if childrenCount children = 0 then
          return .done .empty
        else
          let memoryUsage ← calcMemoryUsage childrenMemoryUsage (.branch children none) none
          return .done (.mk (.branch children none) memoryUsage)
      else
        match children (partialKey.at 0) with
        | some handle =>
            let child ← handle.toMutable storage
            let memoryUsage ←
              calcMemoryUsage childrenMemoryUsage (.branch children value) (some child)
            return .descend (.branch children (partialKey.at 0) value memoryUsage) child
              (partialKey.mid 1)
        | none => return .done (.mk (.branch children value) node.memoryUsage)
  | .extension key child =>
      let some (existingKey, _) := NibbleSlice.fromEncoded key | throw .panic
      let commonPrefix := existingKey.commonPrefix partialKey
      let existingLen := existingKey.len
      if commonPrefix = existingLen then
        let child ← child.toMutable storage
        let memoryUsage ←
          calcMemoryUsage childrenMemoryUsage (.extension key (.inMemory child)) (some child)
        return .descend (.extension key memoryUsage) child (partialKey.mid existingLen)
      else
        return .done (.mk (.extension key child) node.memoryUsage)

/-- The loop of `Trie::delete`, each turn paid by one unit of `fuel`. -/
def deleteLoop (storage : TrieStorage) (path : List Crumb) (node : TrieNodeWithSize)
    (partialKey : NibbleSlice) : ℕ → NodesStorage →
      Except Failure ((List Crumb × TrieNodeWithSize) × NodesStorage)
  | 0, _ => .error .outOfFuel
  | fuel + 1, memory =>
      match (deleteStep storage node partialKey).run memory with
      | .error e => .error e
      | .ok (.done node', memory') => .ok ((path, node'), memory')
      | .ok (.descend crumb child partialKey', memory') =>
          deleteLoop storage (crumb :: path) child partialKey' fuel memory'

/-- `fix_extension_node`: the node at an extension's place once its child is
known, the two merged when the child is a leaf or an extension. -/
def fixExtensionNode (storage : TrieStorage) (key : List UInt8) (child : NodeHandle) :
    TrieM TrieNodeWithSize := do
  let child ← child.toMutable storage
  let childChildMemoryUsage ← subtract child.memoryUsage child.node.memoryUsageDirect
  match child.node with
  | .empty => return .empty
  | .leaf childKey value =>
      let some (existingKey, _) := NibbleSlice.fromEncoded key | throw .panic
      let some (childKey, _) := NibbleSlice.fromEncoded childKey | throw .panic
      let some key := existingKey.mergeEncoded childKey true | throw .panic
      let newNode := TrieNode.leaf key value
      return .mk newNode newNode.memoryUsageDirect
  | .branch children value =>
      let newNode := TrieNode.extension key (.inMemory (.mk (.branch children value) child.memoryUsage))
      return .mk newNode (child.memoryUsage + newNode.memoryUsageDirect)
  | .extension childKey childChild =>
      let some (existingKey, _) := NibbleSlice.fromEncoded key | throw .panic
      let some (childKey, _) := NibbleSlice.fromEncoded childKey | throw .panic
      let some key := existingKey.mergeEncoded childKey false | throw .panic
      let newNode := TrieNode.extension key childChild
      return .mk newNode (newNode.memoryUsageDirect + childChildMemoryUsage)

/-- The children of a branch with every in-memory empty child dropped. -/
def dropEmptyChildren (children : Children NodeHandle) : Children NodeHandle := fun i =>
  match children i with
  | some (.inMemory (.mk .empty _)) => none
  | child => child

theorem dropEmptyChildren_eq_some {children : Children NodeHandle} {i : Nibble} {child : NodeHandle}
    (h : dropEmptyChildren children i = some child) : children i = some child := by
  unfold dropEmptyChildren at h
  split at h
  · cases h
  · exact h

theorem dropEmptyChildren_eq_none {children : Children NodeHandle} {i : Nibble}
    (h : dropEmptyChildren children i = none) :
    children i = none ∨ ∃ memoryUsage, children i = some (.inMemory (.mk .empty memoryUsage)) := by
  unfold dropEmptyChildren at h
  split at h
  · next memoryUsage hi => exact .inr ⟨memoryUsage, hi⟩
  · exact .inl h

/-- One turn of the loop of `fix_nodes`: the node at one handle of the path,
`childMemoryUsage` being the memory usage of the fixed node below it. -/
def fixNode (storage : TrieStorage) (node : TrieNodeWithSize) (childMemoryUsage : ℕ) :
    TrieM TrieNodeWithSize := do
  let memoryUsage := node.memoryUsage + childMemoryUsage
  match node.node with
  | .empty => return .empty
  | .leaf key value => return .mk (.leaf key value) memoryUsage
  | .branch children value =>
      let children := dropEmptyChildren children
      let numChildren := childrenCount children
      if numChildren = 0 then
        match value with
        | some value =>
            let leafNode := TrieNode.leaf ((NibbleSlice.new []).encoded true) value
            return .mk leafNode leafNode.memoryUsageDirect
        | none => return .empty
      else if numChildren = 1 ∧ value.isNone then
        -- a branch with one child becomes an extension
        let some idx := firstChild children | throw .panic
        let some child := children idx | throw .panic
        let key := (NibbleSlice.new [idx.val.toUInt8 <<< 4]).encodedLeftmost 1 false
        fixExtensionNode storage key child
      else
        return .mk (.branch children value) memoryUsage
  | .extension key child => fixExtensionNode storage key child

/-- `fix_nodes`: the path from the node the walk stopped at back up to the
root. -/
def fixNodes (storage : TrieStorage) (path : List Crumb) (node : TrieNodeWithSize) :
    TrieM TrieNodeWithSize := do
  let node ← fixNode storage node 0
  path.foldlM (fun child crumb => fixNode storage (crumb.plug child) child.memoryUsage) node

/-- `Trie::delete`, its walk down paid by `fuel`. -/
def delete (storage : TrieStorage) (node : TrieNodeWithSize) (partialKey : NibbleSlice)
    (fuel : ℕ) : TrieM TrieNodeWithSize := fun memory => do
  let ((path, node), memory) ← deleteLoop storage [] node partialKey fuel memory
  (fixNodes storage path node).run memory

/-! ## What one turn of the walk does -/

/-- What one successful turn of the loop of `delete` does, by the kind of the
node and the guards of the source. -/
inductive DeleteStepCase (storage : TrieStorage) (partialKey : NibbleSlice) (memory : NodesStorage) :
    TrieNodeWithSize → DeleteStep → NodesStorage → Prop
  | empty (memoryUsage : ℕ) :
      DeleteStepCase storage partialKey memory (.mk .empty memoryUsage) (.done .empty) memory
  | leafDelete (key : List UInt8) (value : ValueHandle) (memoryUsage : ℕ) (existingKey : NibbleSlice)
      (isLeaf : Bool) (memory' : NodesStorage)
      (hmemory : (TrieNode.leaf key value).memoryUsageDirect ≤ memoryUsage)
      (hkey : NibbleSlice.fromEncoded key = some (existingKey, isLeaf))
      (hsame : (existingKey == partialKey) = true)
      (hdelete : (deleteValue storage value).run memory = .ok ((), memory')) :
      DeleteStepCase storage partialKey memory (.mk (.leaf key value) memoryUsage) (.done .empty) memory'
  | leafKeep (key : List UInt8) (value : ValueHandle) (memoryUsage : ℕ) (existingKey : NibbleSlice)
      (isLeaf : Bool)
      (hmemory : (TrieNode.leaf key value).memoryUsageDirect ≤ memoryUsage)
      (hkey : NibbleSlice.fromEncoded key = some (existingKey, isLeaf))
      (hsame : (existingKey == partialKey) = false) :
      DeleteStepCase storage partialKey memory (.mk (.leaf key value) memoryUsage)
        (.done (.mk (.leaf key value) (TrieNode.leaf key value).memoryUsageDirect)) memory
  | branchEmpty (children : Children NodeHandle) (value : Option ValueHandle) (memoryUsage : ℕ)
      (memory' : NodesStorage)
      (hmemory : (TrieNode.branch children value).memoryUsageDirect ≤ memoryUsage)
      (hkey : partialKey.isEmpty = true)
      (hdelete : (value.forM (deleteValue storage)).run memory = .ok ((), memory'))
      (hcount : childrenCount children = 0) :
      DeleteStepCase storage partialKey memory (.mk (.branch children value) memoryUsage) (.done .empty)
        memory'
  | branchValue (children : Children NodeHandle) (value : Option ValueHandle) (memoryUsage : ℕ)
      (memory' : NodesStorage)
      (hmemory : (TrieNode.branch children value).memoryUsageDirect ≤ memoryUsage)
      (hkey : partialKey.isEmpty = true)
      (hdelete : (value.forM (deleteValue storage)).run memory = .ok ((), memory'))
      (hcount : childrenCount children ≠ 0) :
      DeleteStepCase storage partialKey memory (.mk (.branch children value) memoryUsage)
        (.done (.mk (.branch children none)
          (memoryUsage - (TrieNode.branch children value).memoryUsageDirect +
            (TrieNode.branch children none).memoryUsageDirect))) memory'
  | branchChild (children : Children NodeHandle) (value : Option ValueHandle) (memoryUsage : ℕ)
      (handle : NodeHandle) (child : TrieNodeWithSize) (memory' : NodesStorage)
      (hmemory : (TrieNode.branch children value).memoryUsageDirect ≤ memoryUsage)
      (hkey : partialKey.isEmpty = false)
      (hhandle : children (partialKey.at 0) = some handle)
      (hload : (handle.toMutable storage).run memory = .ok (child, memory'))
      (hchild : child.memoryUsage ≤ memoryUsage) :
      DeleteStepCase storage partialKey memory (.mk (.branch children value) memoryUsage)
        (.descend (.branch children (partialKey.at 0) value (memoryUsage - child.memoryUsage)) child
          (partialKey.mid 1)) memory'
  | branchNone (children : Children NodeHandle) (value : Option ValueHandle) (memoryUsage : ℕ)
      (hmemory : (TrieNode.branch children value).memoryUsageDirect ≤ memoryUsage)
      (hkey : partialKey.isEmpty = false)
      (hnone : children (partialKey.at 0) = none) :
      DeleteStepCase storage partialKey memory (.mk (.branch children value) memoryUsage)
        (.done (.mk (.branch children value) memoryUsage)) memory
  | extensionChild (key : List UInt8) (child : NodeHandle) (memoryUsage : ℕ)
      (existingKey : NibbleSlice) (isLeaf : Bool) (child' : TrieNodeWithSize) (memory' : NodesStorage)
      (hmemory : (TrieNode.extension key child).memoryUsageDirect ≤ memoryUsage)
      (hkey : NibbleSlice.fromEncoded key = some (existingKey, isLeaf))
      (hcommon : existingKey.commonPrefix partialKey = existingKey.len)
      (hload : (child.toMutable storage).run memory = .ok (child', memory'))
      (hchild : child'.memoryUsage ≤ memoryUsage) :
      DeleteStepCase storage partialKey memory (.mk (.extension key child) memoryUsage)
        (.descend (.extension key (memoryUsage - child'.memoryUsage)) child'
          (partialKey.mid existingKey.len)) memory'
  | extensionKeep (key : List UInt8) (child : NodeHandle) (memoryUsage : ℕ)
      (existingKey : NibbleSlice) (isLeaf : Bool)
      (hmemory : (TrieNode.extension key child).memoryUsageDirect ≤ memoryUsage)
      (hkey : NibbleSlice.fromEncoded key = some (existingKey, isLeaf))
      (hcommon : existingKey.commonPrefix partialKey ≠ existingKey.len) :
      DeleteStepCase storage partialKey memory (.mk (.extension key child) memoryUsage)
        (.done (.mk (.extension key child) memoryUsage)) memory

/-- The memory of a branch or an extension itself does not depend on its
children. -/
theorem TrieNode.memoryUsageDirect_extension (key : List UInt8) (child child' : NodeHandle) :
    (TrieNode.extension key child).memoryUsageDirect =
      (TrieNode.extension key child').memoryUsageDirect := rfl

theorem deleteStep_cases {storage : TrieStorage} {node : TrieNodeWithSize} {partialKey : NibbleSlice}
    {memory memory' : NodesStorage} {r : DeleteStep}
    (h : (deleteStep storage node partialKey).run memory = .ok (r, memory')) :
    DeleteStepCase storage partialKey memory node r memory' := by
  unfold deleteStep at h
  rw [run_bind_eq_ok] at h
  obtain ⟨childrenMemoryUsage, memory₁, hsub, h⟩ := h
  rw [run_subtract_eq_ok] at hsub
  obtain ⟨hmemory, rfl, rfl⟩ := hsub
  obtain ⟨n, memoryUsage⟩ := node
  cases n with
  | empty =>
      simp only [TrieNodeWithSize.node_mk, run_pure, Except.ok.injEq, Prod.mk.injEq] at h
      obtain ⟨rfl, rfl⟩ := h
      exact .empty memoryUsage
  | leaf key value =>
      simp only [TrieNodeWithSize.node_mk, TrieNodeWithSize.memoryUsage_mk] at h hmemory
      split at h
      · next _ existingKey isLeaf hkey =>
          split at h
          · next hsame =>
              rw [run_bind_eq_ok] at h
              obtain ⟨u, memory₂, hdelete, h⟩ := h
              simp only [run_pure, Except.ok.injEq, Prod.mk.injEq] at h
              obtain ⟨rfl, rfl⟩ := h
              exact .leafDelete key value memoryUsage existingKey isLeaf _ hmemory hkey hsame hdelete
          · next hsame =>
              simp only [run_pure, Except.ok.injEq, Prod.mk.injEq] at h
              obtain ⟨rfl, rfl⟩ := h
              exact .leafKeep key value memoryUsage existingKey isLeaf hmemory hkey
                (by simpa using hsame)
      · simp only [run_throw, reduceCtorEq] at h
  | branch children value =>
      simp only [TrieNodeWithSize.node_mk, TrieNodeWithSize.memoryUsage_mk] at h hmemory
      split at h
      · next hkey =>
          rw [run_bind_eq_ok] at h
          obtain ⟨u, memory₂, hdelete, h⟩ := h
          split at h
          · next hcount =>
              simp only [run_pure, Except.ok.injEq, Prod.mk.injEq] at h
              obtain ⟨rfl, rfl⟩ := h
              exact .branchEmpty children value memoryUsage _ hmemory hkey hdelete hcount
          · next hcount =>
              rw [run_bind_eq_ok] at h
              obtain ⟨mu, memory₃, hcalc, h⟩ := h
              simp only [run_pure, Except.ok.injEq, Prod.mk.injEq] at h
              obtain ⟨rfl, rfl⟩ := h
              unfold calcMemoryUsage at hcalc
              rw [run_subtract_eq_ok] at hcalc
              obtain ⟨-, rfl, rfl⟩ := hcalc
              exact .branchValue children value memoryUsage _ hmemory hkey hdelete hcount
      · next hkey =>
          split at h
          · next handle hhandle =>
              rw [run_bind_eq_ok] at h
              obtain ⟨child, memory₂, hload, h⟩ := h
              rw [run_bind_eq_ok] at h
              obtain ⟨mu, memory₃, hcalc, h⟩ := h
              simp only [run_pure, Except.ok.injEq, Prod.mk.injEq] at h
              obtain ⟨rfl, rfl⟩ := h
              unfold calcMemoryUsage at hcalc
              rw [run_subtract_eq_ok] at hcalc
              obtain ⟨hchild, rfl, rfl⟩ := hcalc
              have hsum : memoryUsage - (TrieNode.branch children value).memoryUsageDirect +
                  (TrieNode.branch children value).memoryUsageDirect = memoryUsage := by omega
              simp only [Option.map_some, Option.getD_some, hsum] at hchild ⊢
              exact .branchChild children value memoryUsage handle child _ hmemory (by simpa using hkey)
                hhandle hload hchild
          · next hnone =>
              simp only [run_pure, Except.ok.injEq, Prod.mk.injEq] at h
              obtain ⟨rfl, rfl⟩ := h
              exact .branchNone children value memoryUsage hmemory (by simpa using hkey) hnone
  | extension key child =>
      simp only [TrieNodeWithSize.node_mk, TrieNodeWithSize.memoryUsage_mk] at h hmemory
      split at h
      · next _ existingKey isLeaf hkey =>
          split at h
          · next hcommon =>
              rw [run_bind_eq_ok] at h
              obtain ⟨child', memory₂, hload, h⟩ := h
              rw [run_bind_eq_ok] at h
              obtain ⟨mu, memory₃, hcalc, h⟩ := h
              simp only [run_pure, Except.ok.injEq, Prod.mk.injEq] at h
              obtain ⟨rfl, rfl⟩ := h
              unfold calcMemoryUsage at hcalc
              rw [run_subtract_eq_ok] at hcalc
              obtain ⟨hchild, rfl, rfl⟩ := hcalc
              have hsum : memoryUsage - (TrieNode.extension key child).memoryUsageDirect +
                  (TrieNode.extension key (.inMemory child')).memoryUsageDirect = memoryUsage := by
                rw [TrieNode.memoryUsageDirect_extension key (.inMemory child') child]
                omega
              simp only [Option.map_some, Option.getD_some, hsum] at hchild ⊢
              exact .extensionChild key child memoryUsage existingKey isLeaf child' _ hmemory hkey
                hcommon hload hchild
          · next hcommon =>
              simp only [run_pure, Except.ok.injEq, Prod.mk.injEq] at h
              obtain ⟨rfl, rfl⟩ := h
              exact .extensionKeep key child memoryUsage existingKey isLeaf hmemory hkey hcommon
      · simp only [run_throw, reduceCtorEq] at h

/-- The runs of the walk of `delete`, turn by turn. -/
inductive DeleteRun (storage : TrieStorage) :
    List Crumb → TrieNodeWithSize → NibbleSlice → NodesStorage →
      List Crumb → TrieNodeWithSize → NodesStorage → Prop
  | done {path node partialKey memory node' memory'}
      (hstep : DeleteStepCase storage partialKey memory node (.done node') memory') :
      DeleteRun storage path node partialKey memory path node' memory'
  | descend {path node partialKey memory crumb child partialKey' memory' path'' node'' memory''}
      (hstep : DeleteStepCase storage partialKey memory node (.descend crumb child partialKey') memory')
      (hrun : DeleteRun storage (crumb :: path) child partialKey' memory' path'' node'' memory'') :
      DeleteRun storage path node partialKey memory path'' node'' memory''

theorem deleteLoop_run {storage : TrieStorage} {path path' : List Crumb}
    {node node' : TrieNodeWithSize} {partialKey : NibbleSlice} {fuel : ℕ}
    {memory memory' : NodesStorage}
    (h : deleteLoop storage path node partialKey fuel memory = .ok ((path', node'), memory')) :
    DeleteRun storage path node partialKey memory path' node' memory' := by
  induction fuel generalizing path node partialKey memory with
  | zero => simp [deleteLoop] at h
  | succ fuel ih =>
      simp only [deleteLoop] at h
      split at h
      · simp at h
      · next node₁ memory₁ hstep =>
          simp only [Except.ok.injEq, Prod.mk.injEq] at h
          obtain ⟨⟨rfl, rfl⟩, rfl⟩ := h
          exact .done (deleteStep_cases hstep)
      · next crumb child partialKey₁ memory₁ hstep =>
          exact .descend (deleteStep_cases hstep) (ih h)

/-! ## What the pass back up does -/

/-- What a successful `fix_extension_node` does, by the kind of the child. -/
inductive FixExtensionCase (storage : TrieStorage) (key : List UInt8) (memory : NodesStorage) :
    NodeHandle → TrieNodeWithSize → NodesStorage → Prop
  | empty (child : NodeHandle) (memoryUsage : ℕ) (memory' : NodesStorage)
      (hload : (child.toMutable storage).run memory = .ok (.mk .empty memoryUsage, memory')) :
      FixExtensionCase storage key memory child .empty memory'
  | leaf (child : NodeHandle) (childKey : List UInt8) (value : ValueHandle) (memoryUsage : ℕ)
      (memory' : NodesStorage) (existingKey childSlice : NibbleSlice) (isLeaf isLeaf' : Bool)
      (newKey : List UInt8)
      (hload : (child.toMutable storage).run memory =
        .ok (.mk (.leaf childKey value) memoryUsage, memory'))
      (hmemory : (TrieNode.leaf childKey value).memoryUsageDirect ≤ memoryUsage)
      (hkey : NibbleSlice.fromEncoded key = some (existingKey, isLeaf))
      (hchildKey : NibbleSlice.fromEncoded childKey = some (childSlice, isLeaf'))
      (hmerge : existingKey.mergeEncoded childSlice true = some newKey) :
      FixExtensionCase storage key memory child
        (.mk (.leaf newKey value) (TrieNode.leaf newKey value).memoryUsageDirect) memory'
  | branch (child : NodeHandle) (children : Children NodeHandle) (value : Option ValueHandle)
      (memoryUsage : ℕ) (memory' : NodesStorage)
      (hload : (child.toMutable storage).run memory =
        .ok (.mk (.branch children value) memoryUsage, memory'))
      (hmemory : (TrieNode.branch children value).memoryUsageDirect ≤ memoryUsage) :
      FixExtensionCase storage key memory child
        (.mk (.extension key (.inMemory (.mk (.branch children value) memoryUsage)))
          (memoryUsage + (TrieNode.extension key
            (.inMemory (.mk (.branch children value) memoryUsage))).memoryUsageDirect)) memory'
  | extension (child : NodeHandle) (childKey : List UInt8) (childChild : NodeHandle)
      (memoryUsage : ℕ) (memory' : NodesStorage) (existingKey childSlice : NibbleSlice)
      (isLeaf isLeaf' : Bool) (newKey : List UInt8)
      (hload : (child.toMutable storage).run memory =
        .ok (.mk (.extension childKey childChild) memoryUsage, memory'))
      (hmemory : (TrieNode.extension childKey childChild).memoryUsageDirect ≤ memoryUsage)
      (hkey : NibbleSlice.fromEncoded key = some (existingKey, isLeaf))
      (hchildKey : NibbleSlice.fromEncoded childKey = some (childSlice, isLeaf'))
      (hmerge : existingKey.mergeEncoded childSlice false = some newKey) :
      FixExtensionCase storage key memory child
        (.mk (.extension newKey childChild) ((TrieNode.extension newKey childChild).memoryUsageDirect +
          (memoryUsage - (TrieNode.extension childKey childChild).memoryUsageDirect))) memory'

theorem fixExtensionNode_cases {storage : TrieStorage} {key : List UInt8} {child : NodeHandle}
    {memory memory' : NodesStorage} {node : TrieNodeWithSize}
    (h : (fixExtensionNode storage key child).run memory = .ok (node, memory')) :
    FixExtensionCase storage key memory child node memory' := by
  unfold fixExtensionNode at h
  rw [run_bind_eq_ok] at h
  obtain ⟨⟨n, memoryUsage⟩, memory₁, hload, h⟩ := h
  rw [run_bind_eq_ok] at h
  obtain ⟨childChildMemoryUsage, memory₂, hsub, h⟩ := h
  rw [run_subtract_eq_ok] at hsub
  obtain ⟨hmemory, rfl, rfl⟩ := hsub
  cases n with
  | empty =>
      simp only [TrieNodeWithSize.node_mk, run_pure, Except.ok.injEq, Prod.mk.injEq] at h
      obtain ⟨rfl, rfl⟩ := h
      exact .empty child memoryUsage _ hload
  | leaf childKey value =>
      simp only [TrieNodeWithSize.node_mk, TrieNodeWithSize.memoryUsage_mk] at h hmemory
      split at h
      · next _ existingKey isLeaf hkey =>
          split at h
          · next _ childSlice isLeaf' hchildKey =>
              split at h
              · next newKey hmerge =>
                  simp only [run_pure, Except.ok.injEq, Prod.mk.injEq] at h
                  obtain ⟨rfl, rfl⟩ := h
                  exact .leaf child childKey value memoryUsage _ existingKey childSlice isLeaf isLeaf'
                    newKey hload hmemory hkey hchildKey hmerge
              · simp only [run_throw, reduceCtorEq] at h
          · simp only [run_throw, reduceCtorEq] at h
      · simp only [run_throw, reduceCtorEq] at h
  | branch children value =>
      simp only [TrieNodeWithSize.node_mk, TrieNodeWithSize.memoryUsage_mk, run_pure,
        Except.ok.injEq, Prod.mk.injEq] at h hmemory
      obtain ⟨rfl, rfl⟩ := h
      exact .branch child children value memoryUsage _ hload hmemory
  | extension childKey childChild =>
      simp only [TrieNodeWithSize.node_mk, TrieNodeWithSize.memoryUsage_mk] at h hmemory
      split at h
      · next _ existingKey isLeaf hkey =>
          split at h
          · next _ childSlice isLeaf' hchildKey =>
              split at h
              · next newKey hmerge =>
                  simp only [run_pure, Except.ok.injEq, Prod.mk.injEq] at h
                  obtain ⟨rfl, rfl⟩ := h
                  exact .extension child childKey childChild memoryUsage _ existingKey childSlice
                    isLeaf isLeaf' newKey hload hmemory hkey hchildKey hmerge
              · simp only [run_throw, reduceCtorEq] at h
          · simp only [run_throw, reduceCtorEq] at h
      · simp only [run_throw, reduceCtorEq] at h

/-- What a successful turn of `fix_nodes` does, by the kind of the node, with
`childMemoryUsage` the memory usage of the fixed node below it. -/
inductive FixNodeCase (storage : TrieStorage) (childMemoryUsage : ℕ) (memory : NodesStorage) :
    TrieNodeWithSize → TrieNodeWithSize → NodesStorage → Prop
  | empty (memoryUsage : ℕ) :
      FixNodeCase storage childMemoryUsage memory (.mk .empty memoryUsage) .empty memory
  | leaf (key : List UInt8) (value : ValueHandle) (memoryUsage : ℕ) :
      FixNodeCase storage childMemoryUsage memory (.mk (.leaf key value) memoryUsage)
        (.mk (.leaf key value) (memoryUsage + childMemoryUsage)) memory
  | branchLeaf (children : Children NodeHandle) (value : ValueHandle) (memoryUsage : ℕ)
      (hcount : childrenCount (dropEmptyChildren children) = 0) :
      FixNodeCase storage childMemoryUsage memory (.mk (.branch children (some value)) memoryUsage)
        (.mk (.leaf ((NibbleSlice.new []).encoded true) value)
          (TrieNode.leaf ((NibbleSlice.new []).encoded true) value).memoryUsageDirect) memory
  | branchEmpty (children : Children NodeHandle) (memoryUsage : ℕ)
      (hcount : childrenCount (dropEmptyChildren children) = 0) :
      FixNodeCase storage childMemoryUsage memory (.mk (.branch children none) memoryUsage) .empty memory
  | branchExtension (children : Children NodeHandle) (memoryUsage : ℕ) (idx : Nibble)
      (child : NodeHandle) (node' : TrieNodeWithSize) (memory' : NodesStorage)
      (hcount : childrenCount (dropEmptyChildren children) = 1)
      (hfirst : firstChild (dropEmptyChildren children) = some idx)
      (hchild : dropEmptyChildren children idx = some child)
      (hfix : FixExtensionCase storage ((NibbleSlice.new [idx.val.toUInt8 <<< 4]).encodedLeftmost 1 false)
        memory child node' memory') :
      FixNodeCase storage childMemoryUsage memory (.mk (.branch children none) memoryUsage) node' memory'
  | branch (children : Children NodeHandle) (value : Option ValueHandle) (memoryUsage : ℕ)
      (hcount : childrenCount (dropEmptyChildren children) ≠ 0)
      (hone : ¬(childrenCount (dropEmptyChildren children) = 1 ∧ value.isNone = true)) :
      FixNodeCase storage childMemoryUsage memory (.mk (.branch children value) memoryUsage)
        (.mk (.branch (dropEmptyChildren children) value) (memoryUsage + childMemoryUsage)) memory
  | extension (key : List UInt8) (child : NodeHandle) (memoryUsage : ℕ) (node' : TrieNodeWithSize)
      (memory' : NodesStorage) (hfix : FixExtensionCase storage key memory child node' memory') :
      FixNodeCase storage childMemoryUsage memory (.mk (.extension key child) memoryUsage) node' memory'

theorem fixNode_cases {storage : TrieStorage} {node node' : TrieNodeWithSize} {childMemoryUsage : ℕ}
    {memory memory' : NodesStorage}
    (h : (fixNode storage node childMemoryUsage).run memory = .ok (node', memory')) :
    FixNodeCase storage childMemoryUsage memory node node' memory' := by
  obtain ⟨n, memoryUsage⟩ := node
  unfold fixNode at h
  cases n with
  | empty =>
      simp only [TrieNodeWithSize.node_mk, run_pure, Except.ok.injEq, Prod.mk.injEq] at h
      obtain ⟨rfl, rfl⟩ := h
      exact .empty memoryUsage
  | leaf key value =>
      simp only [TrieNodeWithSize.node_mk, TrieNodeWithSize.memoryUsage_mk, run_pure,
        Except.ok.injEq, Prod.mk.injEq] at h
      obtain ⟨rfl, rfl⟩ := h
      exact .leaf key value memoryUsage
  | branch children value =>
      simp only [TrieNodeWithSize.node_mk, TrieNodeWithSize.memoryUsage_mk] at h
      split at h
      · next hcount =>
          cases value with
          | some value =>
              simp only [run_pure, Except.ok.injEq, Prod.mk.injEq] at h
              obtain ⟨rfl, rfl⟩ := h
              exact .branchLeaf children value memoryUsage hcount
          | none =>
              simp only [run_pure, Except.ok.injEq, Prod.mk.injEq] at h
              obtain ⟨rfl, rfl⟩ := h
              exact .branchEmpty children memoryUsage hcount
      · next hcount =>
          split at h
          · next hone =>
              obtain ⟨hone, hnone⟩ := hone
              cases value with
              | some value => simp at hnone
              | none =>
                  split at h
                  · next idx hfirst =>
                      split at h
                      · next child hchild =>
                          exact .branchExtension children memoryUsage idx child node' memory' hone hfirst
                            hchild (fixExtensionNode_cases h)
                      · simp only [run_throw, reduceCtorEq] at h
                  · simp only [run_throw, reduceCtorEq] at h
          · next hone =>
              simp only [run_pure, Except.ok.injEq, Prod.mk.injEq] at h
              obtain ⟨rfl, rfl⟩ := h
              exact .branch children value memoryUsage hcount hone
  | extension key child =>
      exact .extension key child memoryUsage node' memory' (fixExtensionNode_cases h)

end Nearcore.Trie
