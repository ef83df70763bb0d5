import Nearcore.TrieMemoryBound

/-!
# `Trie::update` returns on a well formed trie

`Trie::update` fails in three ways: a storage error when a node or a value it
reads is missing, a panic, and in the model's `delete` the end of its fuel.
The panics are a `u64` memory usage that would underflow, a key that does not
decode, the first nibble of an empty extension key, a missing child of a branch
counted as having one, a reference count that leaves the `i32` range, and a
node whose key Borsh cannot serialize.

On a well formed trie none of them is reached as long as the counts have room.
Every turn of every walk reads at most one stored node or value, each a
decrement of one count (`OneDecrement`), and the sum of the sizes of all counts
(`NodesStorage.weight`) bounds each of them.  The walk of `insert` takes at
most `2 * partialKey.len + 2` turns, by the rank that its loop decreases; the
walk of `delete` at most `partialKey.len + 1`, and its pass back up one turn
per crumb.  So each walk returns, with the weight grown by at most its number
of turns (`insert_ok`, `delete_ok`).
-/

namespace Nearcore.Trie

/-! ## One decrement per turn -/

section Decrement

variable {storage : TrieStorage} {memory memory' : NodesStorage}

/-- The counts unchanged, or one stored node or value counted once less: what
one turn of a walk does to the reference count changes. -/
def OneDecrement (storage : TrieStorage) (memory memory' : NodesStorage) : Prop :=
  memory' = memory ∨ ∃ k c, storage k = some c ∧ memory' = memory.addToEntry k c (-1)

theorem OneDecrement.weight_le (h : OneDecrement storage memory memory') :
    memory'.weight ≤ memory.weight + 1 := by
  rcases h with rfl | ⟨k, c, -, rfl⟩
  · omega
  · simpa using memory.weight_addToEntry_le k c (-1)

theorem oneDecrement_moveNodeToMutable {k : CryptoHash} {node : TrieNodeWithSize}
    (h : (moveNodeToMutable storage k).run memory = .ok (node, memory')) :
    OneDecrement storage memory memory' := by
  unfold moveNodeToMutable at h
  split at h
  · cases h
  · simp only [run_pure, Except.ok.injEq, Prod.mk.injEq] at h
    exact .inl h.2.symm
  · next raw hretrieve =>
      obtain ⟨u, memory₁, hadd, hpure⟩ := run_bind_eq_ok.mp h
      simp only [run_pure, Except.ok.injEq, Prod.mk.injEq] at hpure
      rw [← hpure.2, run_addRefcount_eq_ok hadd]
      exact .inr ⟨k, _, storage_of_retrieveRawNode hretrieve, rfl⟩

theorem oneDecrement_toMutable {handle : NodeHandle} {node : TrieNodeWithSize}
    (h : (handle.toMutable storage).run memory = .ok (node, memory')) :
    OneDecrement storage memory memory' := by
  cases handle with
  | hash k => exact oneDecrement_moveNodeToMutable h
  | inMemory n =>
      simp only [NodeHandle.toMutable, run_pure, Except.ok.injEq, Prod.mk.injEq] at h
      exact .inl h.2.symm

theorem oneDecrement_childToMutable {child : Option NodeHandle} {node : TrieNodeWithSize}
    (h : (childToMutable storage child).run memory = .ok (node, memory')) :
    OneDecrement storage memory memory' := by
  cases child with
  | some handle => exact oneDecrement_toMutable h
  | none =>
      simp only [childToMutable, run_pure, Except.ok.injEq, Prod.mk.injEq] at h
      exact .inl h.2.symm

theorem oneDecrement_deleteValue {value : ValueHandle}
    (h : (deleteValue storage value).run memory = .ok ((), memory')) :
    OneDecrement storage memory memory' := by
  cases value with
  | inMemory v =>
      simp only [deleteValue, run_pure, Except.ok.injEq, Prod.mk.injEq] at h
      exact .inl h.2.symm
  | hashAndSize v =>
      simp only [deleteValue] at h
      split at h
      · cases h
      · next c hs => exact .inr ⟨v.hash, c, hs, run_addRefcount_eq_ok h⟩

theorem oneDecrement_forM_deleteValue {value : Option ValueHandle}
    (h : (value.forM (deleteValue storage)).run memory = .ok ((), memory')) :
    OneDecrement storage memory memory' := by
  cases value with
  | none =>
      cases h
      exact .inl rfl
  | some v => exact oneDecrement_deleteValue h

variable {value : List UInt8} {partialKey : NibbleSlice} {node : TrieNodeWithSize}

theorem InsertStepCase.oneDecrement {r : InsertStep}
    (h : InsertStepCase storage value partialKey memory node r memory') :
    OneDecrement storage memory memory' := by
  cases h with
  | branchValue _ _ _ _ _ _ hdelete => exact oneDecrement_forM_deleteValue hdelete
  | branchChild _ _ _ _ _ _ _ hload => exact oneDecrement_childToMutable hload
  | leafEqual _ _ _ _ _ _ _ _ _ hdelete => exact oneDecrement_deleteValue hdelete
  | extensionChild _ _ _ _ _ _ _ _ _ _ _ hload => exact oneDecrement_toMutable hload
  | empty | leafBranch | leafExtension | leafSplit | extensionBranch | extensionSplit => exact .inl rfl

theorem DeleteStepCase.oneDecrement {r : DeleteStep}
    (h : DeleteStepCase storage partialKey memory node r memory') :
    OneDecrement storage memory memory' := by
  cases h with
  | leafDelete _ _ _ _ _ _ _ _ _ hdelete => exact oneDecrement_deleteValue hdelete
  | branchEmpty _ _ _ _ _ _ hdelete => exact oneDecrement_forM_deleteValue hdelete
  | branchValue _ _ _ _ _ _ hdelete => exact oneDecrement_forM_deleteValue hdelete
  | branchChild _ _ _ _ _ _ _ _ _ hload => exact oneDecrement_toMutable hload
  | extensionChild _ _ _ _ _ _ _ _ _ _ hload => exact oneDecrement_toMutable hload
  | empty | leafKeep | branchNone | extensionKeep => exact .inl rfl

theorem FixExtensionCase.oneDecrement {key : List UInt8} {child : NodeHandle}
    (h : FixExtensionCase storage key memory child node memory') :
    OneDecrement storage memory memory' := by
  cases h with
  | empty _ _ hload => exact oneDecrement_toMutable hload
  | leaf _ _ _ _ _ _ _ _ _ hload => exact oneDecrement_toMutable hload
  | branch _ _ _ _ hload => exact oneDecrement_toMutable hload
  | extension _ _ _ _ _ _ _ _ _ hload => exact oneDecrement_toMutable hload

theorem FixNodeCase.oneDecrement {childMemoryUsage : ℕ} {node' : TrieNodeWithSize}
    (h : FixNodeCase storage childMemoryUsage memory node node' memory') :
    OneDecrement storage memory memory' := by
  cases h with
  | branchExtension _ _ _ _ _ _ _ _ _ hfix => exact hfix.oneDecrement
  | extension _ _ _ _ _ hfix => exact hfix.oneDecrement
  | empty | leaf | branchLeaf | branchEmpty | branch => exact .inl rfl

end Decrement

/-! ## Reading the storage returns -/

section Storage

variable {storage : TrieStorage} {memory : NodesStorage}

theorem run_subtract_of_le {a b : ℕ} (h : b ≤ a) : (subtract a b).run memory = .ok (a - b, memory) := by
  unfold subtract
  rw [if_pos h]
  rfl

theorem run_toMutable_of_load {handle : NodeHandle} {node : TrieNodeWithSize}
    (hload : handle.load storage = some node) (hw : memory.weight + 1 < 2 ^ 31) :
    ∃ memory', (handle.toMutable storage).run memory = .ok (node, memory') := by
  cases handle with
  | inMemory n =>
      rw [NodeHandle.load_inMemory, Option.some.injEq] at hload
      exact ⟨memory, by rw [← hload]; rfl⟩
  | hash h =>
      rcases NodeHandle.load_hash_eq_some.mp hload with ⟨hretrieve, rfl⟩ | ⟨raw, hretrieve, rfl⟩
      · refine ⟨memory, ?_⟩
        simp only [NodeHandle.toMutable, moveNodeToMutable, hretrieve]
        rfl
      · refine ⟨memory.addToEntry h (.node raw) (-1), ?_⟩
        simp only [NodeHandle.toMutable, moveNodeToMutable, hretrieve]
        rw [run_bind_of_run_eq_ok (run_addRefcount_of_lt _ _ _ _ (by simpa using hw))]
        rfl

theorem WellFormed.run_toMutable_ok {handle : NodeHandle} {usage : ℕ}
    (hs : WellFormed storage handle usage) (hw : memory.weight + 1 < 2 ^ 31) :
    ∃ node memory', (handle.toMutable storage).run memory = .ok (node, memory') := by
  obtain ⟨node, hload, -⟩ := hs.exists_load
  obtain ⟨memory', hrun⟩ := run_toMutable_of_load hload hw
  exact ⟨node, memory', hrun⟩

theorem run_childToMutable_ok {child : Option NodeHandle} {usage : ℕ}
    (hsome : ∀ c, child = some c → WellFormed storage c usage) (hw : memory.weight + 1 < 2 ^ 31) :
    ∃ node memory', (childToMutable storage child).run memory = .ok (node, memory') := by
  cases child with
  | some c => exact (hsome c rfl).run_toMutable_ok hw
  | none => exact ⟨_, _, rfl⟩

theorem run_deleteValue_ok {value : ValueHandle} (hvalue : value.Fits storage)
    (hw : memory.weight + 1 < 2 ^ 31) :
    ∃ memory', (deleteValue storage value).run memory = .ok ((), memory') := by
  cases value with
  | inMemory v => exact ⟨memory, rfl⟩
  | hashAndSize v =>
      obtain ⟨c, hc⟩ := Option.isSome_iff_exists.mp hvalue
      refine ⟨memory.addToEntry v.hash c (-1), ?_⟩
      simp only [deleteValue, hc]
      exact run_addRefcount_of_lt _ _ _ _ (by simpa using hw)

theorem run_forM_deleteValue_ok {value : Option ValueHandle}
    (hvalue : ∀ v, value = some v → v.Fits storage) (hw : memory.weight + 1 < 2 ^ 31) :
    ∃ memory', (value.forM (deleteValue storage)).run memory = .ok ((), memory') := by
  cases value with
  | none => exact ⟨memory, rfl⟩
  | some v => exact run_deleteValue_ok (hvalue v rfl) hw

end Storage

/-! ## One turn of each walk returns -/

section Step

variable {storage : TrieStorage} {memory : NodesStorage} {node : TrieNodeWithSize}

theorem exists_extensionToBranch {existingKey : NibbleSlice} (child : NodeHandle)
    (childrenMemoryUsage : ℕ) (h : 0 < existingKey.len) :
    ∃ branchNode, extensionToBranch existingKey child childrenMemoryUsage = some branchNode := by
  unfold extensionToBranch
  rw [NibbleSlice.at?_eq_some existingKey h]
  exact ⟨_, rfl⟩

theorem exists_firstChild {α : Type} {children : Children α} (h : childrenCount children ≠ 0) :
    ∃ idx, firstChild children = some idx := by
  cases hfirst : firstChild children with
  | some idx => exact ⟨idx, rfl⟩
  | none =>
      refine absurd ((childrenCount_eq_zero_iff children).mpr fun i => ?_) h
      have hi := List.find?_eq_none.mp hfirst i (List.mem_finRange i)
      simpa using hi

theorem insertStep_ok (value : List UInt8) (partialKey : NibbleSlice)
    (hs : WellFormed storage (.inMemory node) node.memoryUsage) (hw : memory.weight + 1 < 2 ^ 31) :
    ∃ r memory', (insertStep storage value node partialKey).run memory = .ok (r, memory') := by
  unfold insertStep
  rw [run_bind_of_run_eq_ok (run_subtract_of_le hs.direct_le)]
  obtain ⟨n, memoryUsage⟩ := node
  cases n with
  | empty => exact ⟨_, _, rfl⟩
  | branch children existingValue =>
      obtain ⟨sizes, hvalue, hnone, hsome, hmu⟩ := hs.branch_inv rfl
      simp only [TrieNodeWithSize.node_mk, TrieNodeWithSize.memoryUsage_mk] at hmu ⊢
      split
      · obtain ⟨memory', hdelete⟩ := run_forM_deleteValue_ok hvalue hw
        rw [run_bind_of_run_eq_ok hdelete]
        exact ⟨_, _, rfl⟩
      · obtain ⟨child, memory', hload⟩ := run_childToMutable_ok (hsome _) hw
        obtain ⟨hchildUsage, -⟩ := WellFormed.childToMutable (hnone _) (hsome _) hload
        have hle : sizes (partialKey.at 0) ≤ ∑ i, sizes i :=
          Finset.single_le_sum (fun i _ => Nat.zero_le (sizes i)) (Finset.mem_univ _)
        rw [run_bind_of_run_eq_ok hload, calcMemoryUsage, run_bind_of_run_eq_ok (run_subtract_of_le ?_)]
        · exact ⟨_, _, rfl⟩
        · simp only [Option.map_some, Option.getD_some, hchildUsage]
          omega
  | leaf key existingValue =>
      obtain ⟨⟨existingKey, isLeaf, hkey, -⟩, hvalue, -⟩ := hs.leaf_inv rfl
      simp only [TrieNodeWithSize.node_mk, hkey]
      split_ifs
      · obtain ⟨memory', hdelete⟩ := run_deleteValue_ok hvalue hw
        rw [run_bind_of_run_eq_ok hdelete]
        exact ⟨_, _, rfl⟩
      all_goals exact ⟨_, _, rfl⟩
  | extension key child =>
      obtain ⟨childUsage, ⟨existingKey, isLeaf, hkey, hlen⟩, hchild, -⟩ := hs.extension_inv rfl
      simp only [TrieNodeWithSize.node_mk, hkey]
      split_ifs
      · obtain ⟨branchNode, hbranch⟩ := exists_extensionToBranch child
          (memoryUsage - (TrieNode.extension key child).memoryUsageDirect) hlen
        simp only [TrieNodeWithSize.memoryUsage_mk, hbranch]
        exact ⟨_, _, rfl⟩
      · obtain ⟨child', memory', hload⟩ := hchild.run_toMutable_ok hw
        rw [run_bind_of_run_eq_ok hload]
        exact ⟨_, _, rfl⟩
      · exact ⟨_, _, rfl⟩

theorem deleteStep_ok (partialKey : NibbleSlice)
    (hs : WellFormed storage (.inMemory node) node.memoryUsage) (hw : memory.weight + 1 < 2 ^ 31) :
    ∃ r memory', (deleteStep storage node partialKey).run memory = .ok (r, memory') := by
  unfold deleteStep
  rw [run_bind_of_run_eq_ok (run_subtract_of_le hs.direct_le)]
  obtain ⟨n, memoryUsage⟩ := node
  cases n with
  | empty => exact ⟨_, _, rfl⟩
  | leaf key value =>
      obtain ⟨⟨existingKey, isLeaf, hkey, -⟩, hvalue, -⟩ := hs.leaf_inv rfl
      simp only [TrieNodeWithSize.node_mk, hkey]
      split
      · obtain ⟨memory', hdelete⟩ := run_deleteValue_ok hvalue hw
        rw [run_bind_of_run_eq_ok hdelete]
        exact ⟨_, _, rfl⟩
      · exact ⟨_, _, rfl⟩
  | branch children value =>
      obtain ⟨sizes, hvalue, -, hsome, hmu⟩ := hs.branch_inv rfl
      simp only [TrieNodeWithSize.node_mk, TrieNodeWithSize.memoryUsage_mk] at hmu ⊢
      split
      · obtain ⟨memory', hdelete⟩ := run_forM_deleteValue_ok hvalue hw
        rw [run_bind_of_run_eq_ok hdelete]
        split
        · exact ⟨_, _, rfl⟩
        · rw [calcMemoryUsage, run_bind_of_run_eq_ok (run_subtract_of_le (by simp))]
          exact ⟨_, _, rfl⟩
      · split
        · next handle hhandle =>
            obtain ⟨child, memory', hload⟩ := (hsome _ handle hhandle).run_toMutable_ok hw
            obtain ⟨hchildUsage, -⟩ := (hsome _ handle hhandle).toMutable hload
            have hle : sizes (partialKey.at 0) ≤ ∑ i, sizes i :=
              Finset.single_le_sum (fun i _ => Nat.zero_le (sizes i)) (Finset.mem_univ _)
            rw [run_bind_of_run_eq_ok hload, calcMemoryUsage,
              run_bind_of_run_eq_ok (run_subtract_of_le ?_)]
            · exact ⟨_, _, rfl⟩
            · simp only [Option.map_some, Option.getD_some, hchildUsage]
              omega
        · exact ⟨_, _, rfl⟩
  | extension key child =>
      obtain ⟨childUsage, ⟨existingKey, isLeaf, hkey, -⟩, hchild, hmu⟩ := hs.extension_inv rfl
      simp only [TrieNodeWithSize.node_mk, TrieNodeWithSize.memoryUsage_mk, hkey] at hmu ⊢
      split
      · obtain ⟨child', memory', hload⟩ := hchild.run_toMutable_ok hw
        obtain ⟨hchildUsage, -⟩ := hchild.toMutable hload
        rw [run_bind_of_run_eq_ok hload, calcMemoryUsage, run_bind_of_run_eq_ok (run_subtract_of_le ?_)]
        · exact ⟨_, _, rfl⟩
        · simp only [Option.map_some, Option.getD_some, hchildUsage,
            TrieNode.memoryUsageDirect_extension key (.inMemory child') child]
          omega
      · exact ⟨_, _, rfl⟩

theorem fixExtensionNode_ok {key : List UInt8} {child : NodeHandle} {childUsage : ℕ}
    (hkey : KeyDecodes key 1) (hchild : WellFormed storage child childUsage)
    (hw : memory.weight + 1 < 2 ^ 31) :
    ∃ node memory', (fixExtensionNode storage key child).run memory = .ok (node, memory') := by
  unfold fixExtensionNode
  obtain ⟨node, memory', hload⟩ := hchild.run_toMutable_ok hw
  obtain ⟨hchildUsage, hs⟩ := hchild.toMutable hload
  rw [← hchildUsage] at hs
  rw [run_bind_of_run_eq_ok hload, run_bind_of_run_eq_ok (run_subtract_of_le hs.direct_le)]
  obtain ⟨existingKey, isLeaf, hexisting, hlen⟩ := hkey
  -- the extension's own key is not empty, so merging it with the child's key succeeds
  have hmerge : ∀ (other : NibbleSlice) (isLeaf' : Bool),
      existingKey.mergeEncoded other isLeaf' =
        some (NibbleSlice.encodeNibbles (existingKey.toList ++ other.toList) isLeaf') :=
    fun other isLeaf' => NibbleSlice.mergeEncoded_eq _ _ _ (.inl (by omega))
  obtain ⟨n, memoryUsage⟩ := node
  cases n with
  | empty => exact ⟨_, _, rfl⟩
  | leaf childKey value =>
      obtain ⟨⟨childSlice, isLeaf', hchildKey, -⟩, -, -⟩ := hs.leaf_inv rfl
      simp only [TrieNodeWithSize.node_mk, hexisting, hchildKey, hmerge]
      exact ⟨_, _, rfl⟩
  | branch children value => exact ⟨_, _, rfl⟩
  | extension childKey childChild =>
      obtain ⟨_, ⟨childSlice, isLeaf', hchildKey, -⟩, -, -⟩ := hs.extension_inv rfl
      simp only [TrieNodeWithSize.node_mk, hexisting, hchildKey, hmerge]
      exact ⟨_, _, rfl⟩

theorem fixNode_ok {childMemoryUsage : ℕ}
    (hs : WellFormed storage (.inMemory (.mk node.node (node.memoryUsage + childMemoryUsage)))
      (node.memoryUsage + childMemoryUsage)) (hw : memory.weight + 1 < 2 ^ 31) :
    ∃ node' memory', (fixNode storage node childMemoryUsage).run memory = .ok (node', memory') := by
  obtain ⟨n, memoryUsage⟩ := node
  unfold fixNode
  cases n with
  | empty => exact ⟨_, _, rfl⟩
  | leaf key value => exact ⟨_, _, rfl⟩
  | branch children value =>
      obtain ⟨sizes, -, -, hsome, -⟩ := hs.branch_inv rfl
      simp only [TrieNodeWithSize.node_mk]
      split_ifs with hzero hone
      · cases value <;> exact ⟨_, _, rfl⟩
      · -- one child left and no value: an extension over that child
        obtain ⟨idx, hidx⟩ := exists_firstChild hzero
        obtain ⟨child, hchild⟩ := Option.isSome_iff_exists.mp (isSome_of_firstChild_eq_some hidx)
        have hlen : (NibbleSlice.new [idx.val.toUInt8 <<< 4]).len = 2 := by
          rw [← NibbleSlice.length_toList, NibbleSlice.toList_new, length_bytesToNibbles]
          rfl
        have hkey : KeyDecodes ((NibbleSlice.new [idx.val.toUInt8 <<< 4]).encodedLeftmost 1 false) 1 :=
          keyDecodes_encodedLeftmost _ _ false (by omega)
        simp only [hidx, hchild]
        exact fixExtensionNode_ok hkey (hsome idx child (dropEmptyChildren_eq_some hchild)) hw
      · exact ⟨_, _, rfl⟩
  | extension key child =>
      obtain ⟨childUsage, hkey, hchild, -⟩ := hs.extension_inv rfl
      exact fixExtensionNode_ok hkey hchild hw

end Step

/-! ## The walks return -/

section Loop

variable {storage : TrieStorage} {value : List UInt8}

/-- The loop of `insert` returns while the counts have room for one decrement
per turn left, the turns being bounded by its rank. -/
theorem insertLoop_ok {path : List Crumb} {node : TrieNodeWithSize} {partialKey : NibbleSlice}
    {memory : NodesStorage} (hs : WellFormed storage (.inMemory node) node.memoryUsage)
    (hw : memory.weight + (2 * partialKey.len + insertRank node.node) + 1 < 2 ^ 31) :
    ∃ path' node' memory',
      insertLoop storage value path node partialKey memory = .ok ((path', node'), memory') := by
  fun_induction insertLoop storage value path node partialKey memory with
  | case1 path node partialKey memory e hstep =>
      obtain ⟨r, memory', hok⟩ : ∃ r memory',
          (insertStep storage value node partialKey).run memory = .ok (r, memory') :=
        insertStep_ok value partialKey hs (by omega)
      rw [hok] at hstep
      cases hstep
  | case2 => exact ⟨_, _, _, rfl⟩
  | case3 path node partialKey memory crumb child partialKey' memory' hstep ih =>
      have hcase := insertStep_cases hstep
      have hlen := hcase.len_lt
      have hrank := insertRank_le_one child.node
      have hweight := hcase.oneDecrement.weight_le
      exact ih (insertStep_descend_wellFormed hcase hs).2 (by omega)
  | case4 path node partialKey memory node' memory' hstep ih =>
      have hcase := insertStep_cases hstep
      have hrank := hcase.rank_lt
      have hweight := hcase.oneDecrement.weight_le
      exact ih (insertStep_again_wellFormed hcase hs) (by omega)

/-- Each turn of the loop of `insert` decrements at most one count. -/
theorem InsertRun.weight_le {path path' : List Crumb} {node node' : TrieNodeWithSize}
    {partialKey : NibbleSlice} {memory memory' : NodesStorage}
    (hrun : InsertRun storage value path node partialKey memory path' node' memory') :
    memory'.weight ≤ memory.weight + (2 * partialKey.len + insertRank node.node) + 1 := by
  induction hrun with
  | done hstep =>
      have := hstep.oneDecrement.weight_le
      omega
  | @descend _ _ _ _ _ child _ _ _ _ _ hstep _ ih =>
      have := hstep.oneDecrement.weight_le
      have := hstep.len_lt
      have := insertRank_le_one child.node
      omega
  | again hstep _ ih =>
      have := hstep.oneDecrement.weight_le
      have := hstep.rank_lt
      omega

theorem insert_ok {node : TrieNodeWithSize} (partialKey : NibbleSlice) (value : List UInt8)
    {memory : NodesStorage} (hs : WellFormed storage (.inMemory node) node.memoryUsage)
    (hw : memory.weight + 2 * partialKey.len + 2 < 2 ^ 31) :
    ∃ node' memory', (insert storage node partialKey value).run memory = .ok (node', memory') ∧
      memory'.weight ≤ memory.weight + 2 * partialKey.len + 2 := by
  have hrank := insertRank_le_one node.node
  obtain ⟨path', node', memory', hloop⟩ : ∃ path' node' memory',
      insertLoop storage value [] node partialKey memory = .ok ((path', node'), memory') :=
    insertLoop_ok hs (by omega)
  have hweight := (insertLoop_run hloop).weight_le
  refine ⟨path'.foldl (fun child crumb => crumb.addChild child) node', memory', ?_, by omega⟩
  unfold insert
  rw [StateT.run, hloop]
  rfl

theorem deleteLoop_ok {path : List Crumb} {node : TrieNodeWithSize} {partialKey : NibbleSlice}
    {fuel : ℕ} {memory : NodesStorage} (hfuel : partialKey.len < fuel)
    (hs : WellFormed storage (.inMemory node) node.memoryUsage)
    (hw : memory.weight + partialKey.len + 1 < 2 ^ 31) :
    ∃ path' node' memory',
      deleteLoop storage path node partialKey fuel memory = .ok ((path', node'), memory') := by
  induction fuel generalizing path node partialKey memory with
  | zero => omega
  | succ fuel ih =>
      obtain ⟨r, memory', hstep⟩ : ∃ r memory',
          (deleteStep storage node partialKey).run memory = .ok (r, memory') :=
        deleteStep_ok partialKey hs (by omega)
      simp only [deleteLoop, hstep]
      cases r with
      | done node' => exact ⟨_, _, _, rfl⟩
      | descend crumb child partialKey' =>
          have hcase := deleteStep_cases hstep
          have hlen := hcase.len_lt hs
          have hweight := hcase.oneDecrement.weight_le
          exact ih (by omega) (deleteStep_descend_wellFormed hcase hs).2 (by omega)

/-- The walk of `delete` decrements at most one count per turn. -/
theorem DeleteRun.weight_le {path path' : List Crumb} {node node' : TrieNodeWithSize}
    {partialKey : NibbleSlice} {memory memory' : NodesStorage}
    (hrun : DeleteRun storage path node partialKey memory path' node' memory')
    (hs : WellFormed storage (.inMemory node) node.memoryUsage) :
    memory'.weight ≤ memory.weight + partialKey.len + 1 := by
  induction hrun with
  | done hstep =>
      have := hstep.oneDecrement.weight_le
      omega
  | descend hstep _ ih =>
      have := hstep.oneDecrement.weight_le
      have := hstep.len_lt hs
      have := ih (deleteStep_descend_wellFormed hstep hs).2
      omega

/-- The pass of `fix_nodes` back up the path returns, one decrement per crumb. -/
theorem foldlM_fixNode_ok {path : List Crumb} (hpath : ∀ crumb ∈ path, CrumbWellFormed storage crumb)
    {child : TrieNodeWithSize} (memory : NodesStorage)
    (hs : WellFormed storage (.inMemory child) child.memoryUsage)
    (hw : memory.weight + path.length < 2 ^ 31) :
    ∃ node' memory', (path.foldlM (fun child crumb => fixNode storage (crumb.plug child) child.memoryUsage)
      child).run memory = .ok (node', memory') ∧ memory'.weight ≤ memory.weight + path.length := by
  induction path generalizing child memory with
  | nil => exact ⟨child, memory, rfl, by simp⟩
  | cons crumb path ih =>
      simp only [List.length_cons] at hw ⊢
      have hplug := (hpath crumb List.mem_cons_self).addChild hs
      rw [Crumb.addChild, ← Crumb.memoryUsage_plug crumb child] at hplug
      obtain ⟨child₁, memory₁, hfix⟩ : ∃ child₁ memory₁,
          (fixNode storage (crumb.plug child) child.memoryUsage).run memory = .ok (child₁, memory₁) :=
        fixNode_ok hplug (by omega)
      have hweight := (fixNode_cases hfix).oneDecrement.weight_le
      obtain ⟨node', memory', hrest, hweight'⟩ := ih (fun c hc => hpath c (List.mem_cons_of_mem crumb hc))
        memory₁ ((fixNode_cases hfix).wellFormed hplug) (by omega)
      refine ⟨node', memory', ?_, by omega⟩
      rw [List.foldlM_cons, run_bind_of_run_eq_ok hfix]
      exact hrest

theorem delete_ok {node : TrieNodeWithSize} (partialKey : NibbleSlice) {fuel : ℕ} {memory : NodesStorage}
    (hfuel : partialKey.len < fuel) (hs : WellFormed storage (.inMemory node) node.memoryUsage)
    (hw : memory.weight + 2 * partialKey.len + 2 < 2 ^ 31) :
    ∃ node' memory', (delete storage node partialKey fuel).run memory = .ok (node', memory') ∧
      memory'.weight ≤ memory.weight + 2 * partialKey.len + 2 := by
  obtain ⟨path, node₁, memory₁, hloop⟩ : ∃ path node₁ memory₁,
      deleteLoop storage [] node partialKey fuel memory = .ok ((path, node₁), memory₁) :=
    deleteLoop_ok hfuel hs (by omega)
  have hrun := deleteLoop_run hloop
  have hpathLen := hrun.length_le hs
  have hweight₁ := hrun.weight_le hs
  obtain ⟨hpath, hs₁⟩ := hrun.wellFormed (fun _ h => nomatch h) hs
  simp only [List.length_nil, Nat.zero_add] at hpathLen
  have hs₀ : WellFormed storage (.inMemory (.mk node₁.node (node₁.memoryUsage + 0)))
      (node₁.memoryUsage + 0) := by
    rw [Nat.add_zero, TrieNodeWithSize.eta]
    exact hs₁
  obtain ⟨node₂, memory₂, hfix⟩ : ∃ node₂ memory₂,
      (fixNode storage node₁ 0).run memory₁ = .ok (node₂, memory₂) := fixNode_ok hs₀ (by omega)
  have hweight₂ := (fixNode_cases hfix).oneDecrement.weight_le
  obtain ⟨node', memory', hfold, hweight'⟩ :=
    foldlM_fixNode_ok hpath memory₂ ((fixNode_cases hfix).wellFormed hs₀) (by omega)
  refine ⟨node', memory', ?_, by omega⟩
  unfold delete
  rw [StateT.run, hloop]
  show (fixNodes storage path node₁).run memory₁ = _
  rw [fixNodes, run_bind_of_run_eq_ok hfix]
  exact hfold

end Loop

/-! ## `Trie::update` -/

section Update

variable {hash : List UInt8 → CryptoHash} {storage : TrieStorage} {fuel : ℕ}

/-- What one change may add to the root's memory usage, and sixty-four times what it may add
to the counts: `256` per byte of its key and one more, plus the bytes of its value. -/
def changeCost (change : List UInt8 × Option (List UInt8)) : ℕ :=
  256 * (change.1.length + 1) + (change.2.map List.length).getD 0

def changesCost (changes : List (List UInt8 × Option (List UInt8))) : ℕ :=
  (changes.map changeCost).sum

@[simp] theorem changesCost_nil : changesCost [] = 0 := rfl

@[simp] theorem changesCost_cons (change : List UInt8 × Option (List UInt8))
    (changes : List (List UInt8 × Option (List UInt8))) :
    changesCost (change :: changes) = changeCost change + changesCost changes := by
  simp [changesCost]

theorem valuesFit_of_changesCost_lt {changes : List (List UInt8 × Option (List UInt8))}
    (h : changesCost changes < 2 ^ 32) : ValuesFit changes := by
  intro change hc value hv
  have hle : changeCost change ≤ changesCost changes := List.le_sum_of_mem (List.mem_map_of_mem hc)
  obtain ⟨key, value'⟩ := change
  dsimp only at hv
  subst hv
  simp only [changeCost, Option.map_some, Option.getD_some] at hle
  omega

/-- One change returns while the counts have room, adding at most its cost to the root's
memory usage and a sixty-fourth of it to the counts. -/
theorem applyChange_ok (change : List UInt8 × Option (List UInt8)) {node : TrieNodeWithSize}
    (memory : NodesStorage) (hfuel : 2 * change.1.length < fuel)
    (hs : WellFormed storage (.inMemory node) node.memoryUsage)
    (hw : 64 * memory.weight + changeCost change < 2 ^ 37) :
    ∃ node' memory', (applyChange storage fuel node change).run memory = .ok (node', memory') ∧
      node'.memoryUsage ≤ node.memoryUsage + changeCost change ∧
      64 * memory'.weight ≤ 64 * memory.weight + changeCost change := by
  obtain ⟨key, value⟩ := change
  have hlen := NibbleSlice.len_new key
  simp only [changeCost] at hfuel hw ⊢
  cases value with
  | some value =>
      obtain ⟨node', memory', hrun, hweight⟩ : ∃ node' memory',
          (insert storage node (NibbleSlice.new key) value).run memory = .ok (node', memory') ∧
            memory'.weight ≤ memory.weight + 2 * (NibbleSlice.new key).len + 2 :=
        insert_ok _ value hs (by omega)
      have husage := insert_memoryUsage_le hrun hs
      simp only [Option.map_some, Option.getD_some]
      exact ⟨node', memory', hrun, by omega, by omega⟩
  | none =>
      obtain ⟨node', memory', hrun, hweight⟩ : ∃ node' memory',
          (delete storage node (NibbleSlice.new key) fuel).run memory = .ok (node', memory') ∧
            memory'.weight ≤ memory.weight + 2 * (NibbleSlice.new key).len + 2 :=
        delete_ok _ (by omega) hs (by omega)
      have husage := delete_memoryUsage_le hrun hs
      simp only [Option.map_none, Option.getD_none]
      exact ⟨node', memory', hrun, by omega, by omega⟩

theorem foldlM_applyChange_ok (changes : List (List UInt8 × Option (List UInt8)))
    (hfuel : ∀ change ∈ changes, 2 * change.1.length < fuel) (hvalues : ValuesFit changes)
    {node : TrieNodeWithSize} (memory : NodesStorage)
    (hs : WellFormed storage (.inMemory node) node.memoryUsage)
    (hw : 64 * memory.weight + changesCost changes < 2 ^ 37) :
    ∃ node' memory', (changes.foldlM (applyChange storage fuel) node).run memory = .ok (node', memory') ∧
      node'.memoryUsage ≤ node.memoryUsage + changesCost changes ∧
      64 * memory'.weight ≤ 64 * memory.weight + changesCost changes := by
  induction changes generalizing node memory with
  | nil => exact ⟨node, memory, rfl, by simp, by simp⟩
  | cons change changes ih =>
      rw [changesCost_cons] at hw ⊢
      obtain ⟨node₁, memory₁, hrun₁, husage₁, hweight₁⟩ :=
        applyChange_ok change memory (hfuel change List.mem_cons_self) hs (by omega)
      have hs₁ := applyChange_wellFormed (hvalues change List.mem_cons_self) hrun₁ hs
      obtain ⟨node', memory', hrun, husage, hweight⟩ :=
        ih (fun c hc => hfuel c (List.mem_cons_of_mem change hc))
          (fun c hc => hvalues c (List.mem_cons_of_mem change hc)) memory₁ hs₁ (by omega)
      refine ⟨node', memory', ?_, by omega, by omega⟩
      rw [List.foldlM_cons, run_bind_of_run_eq_ok hrun₁]
      exact hrun

/-- The loop of `Trie::update` returns from a well formed root: moving the root to memory
decrements one count, each change adds at most its cost. -/
theorem applyChanges_ok {root : CryptoHash} {rootUsage : ℕ}
    {changes : List (List UInt8 × Option (List UInt8))}
    (hroot : WellFormed storage (.hash root) rootUsage)
    (hfuel : ∀ change ∈ changes, 2 * change.1.length < fuel) (hcost : changesCost changes < 2 ^ 32) :
    ∃ node memory, applyChanges storage root changes fuel = .ok (node, memory) ∧
      node.memoryUsage ≤ rootUsage + changesCost changes ∧ 64 * memory.weight ≤ 64 + changesCost changes := by
  obtain ⟨rootNode, memory₁, hmove⟩ : ∃ rootNode memory₁,
      (moveNodeToMutable storage root).run NodesStorage.new = .ok (rootNode, memory₁) :=
    hroot.run_toMutable_ok (by simp)
  have hweight₁ := (oneDecrement_moveNodeToMutable hmove).weight_le
  rw [NodesStorage.weight_new] at hweight₁
  have hs := hroot.inMemory_of_load (load_of_run_moveNodeToMutable hmove)
  have husage := hs.memoryUsage_eq
  rw [← husage] at hs
  obtain ⟨node, memory, hfold, hnode, hweight⟩ :=
    foldlM_applyChange_ok changes hfuel (valuesFit_of_changesCost_lt hcost) memory₁ hs (by omega)
  refine ⟨node, memory, ?_, by omega, by omega⟩
  unfold applyChanges
  rw [hmove]
  exact hfold

/-- `Trie::update` of a well formed trie returns as long as the root's memory usage and the
cost of the changes stay under `2 ^ 32` and the fuel of `delete` covers every key: the counts
then stay far inside `i32` and every key `flatten_nodes` writes fits Borsh's `u32` length. -/
theorem update_ok {root : CryptoHash} {rootUsage : ℕ}
    {changes : List (List UInt8 × Option (List UInt8))}
    (hroot : WellFormed storage (.hash root) rootUsage)
    (hbudget : rootUsage + changesCost changes < 2 ^ 32)
    (hfuel : ∀ change ∈ changes, 2 * change.1.length < fuel) :
    ∃ trieChanges, update hash storage root changes fuel = .ok trieChanges := by
  obtain ⟨node, memory, happly, husage, hweight⟩ := applyChanges_ok hroot hfuel (by omega)
  have hs := applyChanges_wellFormed hroot (valuesFit_of_changesCost_lt (by omega)) happly
  -- what `flatten_nodes` writes: keys that fit, at most one write per fifty of memory usage
  have hkeys : ∀ c ∈ node.writes hash, c.KeysFit := hs.writes_keysFit hash (by omega)
  have hlen : 50 * (node.writes hash).length ≤ node.memoryUsage := hs.writes_length_le hash
  have hcount : (countWrites hash (node.writes hash)).run memory =
      .ok ((), memory.addWrites hash (node.writes hash)) := run_countWrites_of_lt hkeys (by omega)
  have hweight' : (memory.addWrites hash (node.writes hash)).weight ≤ memory.weight + (node.writes hash).length :=
    memory.weight_addWrites_le _
  obtain ⟨trieChanges, hupdate, -, -⟩ := update_of_countWrites happly hcount (by omega)
  exact ⟨trieChanges, hupdate⟩

end Update

/-! ## The map after `Trie::update` -/

section Lookup

variable {hash : List UInt8 → CryptoHash} {storage : TrieStorage} {fuel : ℕ}

/-- A stand-in for SHA-256 that depends on every byte: djb2 modulo `251`, in each of the 32
bytes. -/
def djb2Hash (bytes : List UInt8) : CryptoHash :=
  ⟨Vector.replicate 32 (bytes.foldl (fun (acc : ℕ) (b : UInt8) => (acc * 33 + b.toNat) % 251) 5381).toUInt8⟩

/-- The stored leaf holding `value` below the one nibble `0`. -/
def leafOf (value : List UInt8) : RawTrieNodeWithSize :=
  ⟨.leaf [0x30] ((ValueHandle.inMemory value).toRef djb2Hash),
    (TrieNode.leaf [0x30] (.inMemory value)).memoryUsageDirect⟩

/-- The trie of `[0x10] ↦ [7]` and `[0x20] ↦ [8]`: a branch over two leaves. -/
def twoKeysRoot : RawTrieNodeWithSize :=
  ⟨.branchNoValue fun i => if i.val = 1 then some (djb2Hash (leafOf [7]).toBorsh)
    else if i.val = 2 then some (djb2Hash (leafOf [8]).toBorsh) else none, 256⟩

/-- The storage of `twoKeysRoot`, every node and value under its hash. -/
def twoKeysStorage : TrieStorage := fun k =>
  [Stored.node twoKeysRoot, .node (leafOf [7]), .node (leafOf [8]), .value [7], .value [8]].find?
    fun c => djb2Hash c.bytes == k

def twoKeysMap : List Nibble → Option ValueRef :=
  PathMap.node none fun i =>
    if i.val = 1 then PathMap.single [⟨0, by decide⟩] ((ValueHandle.inMemory [7]).toRef djb2Hash)
    else if i.val = 2 then PathMap.single [⟨0, by decide⟩] ((ValueHandle.inMemory [8]).toRef djb2Hash)
    else PathMap.empty

theorem twoKeysStorage_spec :
    djb2Hash twoKeysRoot.toBorsh ≠ EMPTY_ROOT ∧
      twoKeysStorage (djb2Hash twoKeysRoot.toBorsh) = some (.node twoKeysRoot) ∧
    djb2Hash (leafOf [7]).toBorsh ≠ EMPTY_ROOT ∧
      twoKeysStorage (djb2Hash (leafOf [7]).toBorsh) = some (.node (leafOf [7])) ∧
    djb2Hash (leafOf [8]).toBorsh ≠ EMPTY_ROOT ∧
      twoKeysStorage (djb2Hash (leafOf [8]).toBorsh) = some (.node (leafOf [8])) ∧
    (twoKeysStorage (djb2Hash [7])).isSome ∧ (twoKeysStorage (djb2Hash [8])).isSome := by
  decide +kernel

theorem load_twoKeysRoot :
    (NodeHandle.hash (djb2Hash twoKeysRoot.toBorsh)).load twoKeysStorage = some (.fromRaw twoKeysRoot) :=
  NodeHandle.load_hash_of_stored twoKeysStorage_spec.1 twoKeysStorage_spec.2.1

theorem denotes_leafOf {value : List UInt8} {h : CryptoHash} (hne : h ≠ EMPTY_ROOT)
    (hstored : twoKeysStorage h = some (.node (leafOf value))) :
    Denotes twoKeysStorage djb2Hash (.hash h)
      (PathMap.single [0] ((ValueHandle.inMemory value).toRef djb2Hash)) := by
  have hkey : NibbleSlice.fromEncoded [0x30] = some (⟨[0x30], 1⟩, true) := rfl
  exact Denotes.leaf (NodeHandle.load_hash_of_stored hne hstored) hkey

theorem twoKeys_denotes : Denotes twoKeysStorage djb2Hash (.hash (djb2Hash twoKeysRoot.toBorsh)) twoKeysMap := by
  obtain ⟨-, -, hne₇, hs₇, hne₈, hs₈, -, -⟩ := twoKeysStorage_spec
  refine Denotes.branch load_twoKeysRoot ?_ ?_
  · intro i hi
    by_cases h1 : i.val = 1
    · simp [h1] at hi
    by_cases h2 : i.val = 2
    · simp [h2] at hi
    simp only [h1, h2, if_false]
  · intro i child hi
    by_cases h1 : i.val = 1
    · simp only [if_pos h1, Option.map_some, Option.some.injEq] at hi
      subst hi
      rw [if_pos h1]
      exact denotes_leafOf hne₇ hs₇
    by_cases h2 : i.val = 2
    · simp only [if_neg h1, if_pos h2, Option.map_some, Option.some.injEq] at hi
      subst hi
      rw [if_neg h1, if_pos h2]
      exact denotes_leafOf hne₈ hs₈
    simp [h1, h2] at hi

theorem wellFormed_leafOf (value : List UInt8) {h : CryptoHash} (hne : h ≠ EMPTY_ROOT)
    (hstored : twoKeysStorage h = some (.node (leafOf value)))
    (hvalue : (twoKeysStorage (djb2Hash value)).isSome) (hlen : value.length < 2 ^ 32) :
    WellFormed twoKeysStorage (.hash h) (TrieNode.leaf [0x30] (.inMemory value)).memoryUsageDirect := by
  refine WellFormed.leaf (NodeHandle.load_hash_of_stored hne hstored) ⟨⟨[0x30], 1⟩, true, rfl, by decide⟩
    hvalue ?_
  simp only [TrieNode.memoryUsageDirect_leaf, ValueHandle.memoryUsageValue,
    ValueHandle.toRef, memoryUsageForValueLength, TRIE_COSTS, UInt32.toNat_ofNat', Nat.mod_eq_of_lt hlen]

theorem twoKeys_wellFormed : WellFormed twoKeysStorage (.hash (djb2Hash twoKeysRoot.toBorsh)) 256 := by
  obtain ⟨-, -, hne₇, hs₇, hne₈, hs₈, hv₇, hv₈⟩ := twoKeysStorage_spec
  refine @WellFormed.branch _ _ _ _ _ (fun i => if i.val = 1 ∨ i.val = 2 then 103 else 0) load_twoKeysRoot
    (fun _ h => nomatch h) ?_ ?_ (by decide)
  · intro i hi
    by_cases h1 : i.val = 1
    · simp [h1] at hi
    by_cases h2 : i.val = 2
    · simp [h2] at hi
    simp only [h1, h2, or_self, if_false]
  · intro i child hi
    by_cases h1 : i.val = 1
    · simp only [if_pos h1, Option.map_some, Option.some.injEq] at hi
      subst hi
      rw [if_pos (Or.inl h1)]
      exact wellFormed_leafOf [7] hne₇ hs₇ hv₇ (by decide)
    by_cases h2 : i.val = 2
    · simp only [if_neg h1, if_pos h2, Option.map_some, Option.some.injEq] at hi
      subst hi
      rw [if_pos (Or.inr h2)]
      exact wellFormed_leafOf [8] hne₈ hs₈ hv₈ (by decide)
    simp [h1, h2] at hi

/-- A batch on the trie of two keys: it overwrites one key, adds a key next to the other and
deletes that other, so that `fix_nodes` merges the branch left with one child into a leaf. -/
def twoKeysBatch : List (List UInt8 × Option (List UInt8)) :=
  [([0x10], some [9]), ([0x23], some [5]), ([0x20], none)]

theorem twoKeysBatch_collisionFree :
    CollisionFree djb2Hash twoKeysStorage
      (updateWrites djb2Hash twoKeysStorage (djb2Hash twoKeysRoot.toBorsh) twoKeysBatch 8) :=
  CollisionFree.of_fresh (by decide +kernel)

/-- The leaf of `[0x10] ↦ [7]` stored with memory usage `0`, below its own. -/
def zeroUsageLeaf : RawTrieNodeWithSize :=
  ⟨.leaf [0x20, 0x10] ((ValueHandle.inMemory [7]).toRef djb2Hash), 0⟩

def zeroUsageStorage : TrieStorage := fun k =>
  [Stored.node zeroUsageLeaf, .value [7]].find? fun c => djb2Hash c.bytes == k

theorem zeroUsage_denotes :
    Denotes zeroUsageStorage djb2Hash (.hash (djb2Hash zeroUsageLeaf.toBorsh))
      (PathMap.single [1, 0] ((ValueHandle.inMemory [7]).toRef djb2Hash)) := by
  obtain ⟨hne, hstored⟩ : djb2Hash zeroUsageLeaf.toBorsh ≠ EMPTY_ROOT ∧
      zeroUsageStorage (djb2Hash zeroUsageLeaf.toBorsh) = some (.node zeroUsageLeaf) := by
    decide +kernel
  have hkey : NibbleSlice.fromEncoded [0x20, 0x10] = some (⟨[0x20, 0x10], 2⟩, true) := rfl
  exact Denotes.leaf (NodeHandle.load_hash_of_stored hne hstored) hkey

end Lookup

end Nearcore.Trie
