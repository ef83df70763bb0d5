import Nearcore.TrieMemoryUsage

/-!
# How much memory an update adds

A node's memory usage counts fifty for the node, two per byte of its key and
one per byte of its value plus fifty; a well formed node records its own and
its children's.  One `insert` adds at most a leaf with the value and a few
nodes per turn of its walk, so the root's memory usage grows by at most
`105` per nibble of the key plus `154` plus the value's length
(`insert_memoryUsage_le`); one `delete` by at most two per turn of the pass
back up, where a branch left with one child becomes an extension of one
nibble (`delete_memoryUsage_le`).

The memory usage of a well formed root bounds what `flatten_nodes` writes:
every written node or value counts at least fifty (`WellFormed.writes_length_le`),
and every key at most half of it (`WellFormed.writes_keysFit`).
-/

namespace Nearcore.Trie

/-! ## The memory of one node -/

section Direct

variable (key : List UInt8) (value : ValueHandle) (child : NodeHandle) (children : Children NodeHandle)
  (branchValue : Option ValueHandle)

@[simp] theorem TrieNode.memoryUsageDirect_leaf :
    (TrieNode.leaf key value).memoryUsageDirect = 50 + 2 * key.length + value.memoryUsageValue := by
  simp only [TrieNode.memoryUsageDirect, TRIE_COSTS]
  omega

@[simp] theorem TrieNode.memoryUsageDirect_extension_eq :
    (TrieNode.extension key child).memoryUsageDirect = 50 + 2 * key.length := by
  simp only [TrieNode.memoryUsageDirect, TRIE_COSTS]
  omega

@[simp] theorem TrieNode.memoryUsageDirect_branch_eq :
    (TrieNode.branch children branchValue).memoryUsageDirect =
      50 + (branchValue.map ValueHandle.memoryUsageValue).getD 0 := rfl

@[simp] theorem ValueHandle.memoryUsageValue_inMemory (bytes : List UInt8) :
    (ValueHandle.inMemory bytes).memoryUsageValue = bytes.length + 50 := by
  simp [ValueHandle.memoryUsageValue, memoryUsageForValueLength, TRIE_COSTS]

theorem ValueHandle.fifty_le_memoryUsageValue : 50 ≤ value.memoryUsageValue := by
  cases value <;> simp [ValueHandle.memoryUsageValue, memoryUsageForValueLength, TRIE_COSTS]

end Direct

/-! ## One turn of `insert` -/

section Insert

variable {storage : TrieStorage} {value : List UInt8} {partialKey : NibbleSlice}
  {memory memory' : NodesStorage} {node : TrieNodeWithSize}

theorem leafToBranch_memoryUsage_le (existingKey : NibbleSlice) (existingValue : ValueHandle) :
    (leafToBranch existingKey existingValue).memoryUsage ≤
      100 + 2 * (existingKey.len / 2 + 1) + existingValue.memoryUsageValue := by
  unfold leafToBranch
  split
  · simp only [TrieNodeWithSize.memoryUsage_mk, TrieNode.memoryUsageDirect_branch_eq, Option.map_some,
      Option.getD_some]
    omega
  · simp only [TrieNodeWithSize.memoryUsage_mk, TrieNode.memoryUsageDirect_branch_eq,
      TrieNode.memoryUsageDirect_leaf, NibbleSlice.length_encoded, NibbleSlice.len_mid, Option.map_none,
      Option.getD_none]
    omega

theorem extensionToBranch_memoryUsage_le {existingKey : NibbleSlice} {child : NodeHandle}
    {childrenMemoryUsage : ℕ} {branchNode : TrieNodeWithSize}
    (h : extensionToBranch existingKey child childrenMemoryUsage = some branchNode) :
    branchNode.memoryUsage ≤ childrenMemoryUsage + 100 + 2 * (existingKey.len / 2 + 1) := by
  unfold extensionToBranch at h
  cases hidx : existingKey.at? 0 with
  | none => simp [hidx] at h
  | some idx =>
      simp only [hidx, Option.bind_eq_bind, Option.bind_some, Option.pure_def,
        Option.some.injEq] at h
      subst h
      split
      · simp only [TrieNodeWithSize.memoryUsage_mk, TrieNode.memoryUsageDirect_branch_eq, Option.map_none,
          Option.getD_none]
        omega
      · simp only [TrieNodeWithSize.memoryUsage_mk, TrieNode.memoryUsageDirect_branch_eq,
          TrieNode.memoryUsageDirect_extension_eq, NibbleSlice.length_encoded, NibbleSlice.len_mid,
          Option.map_none, Option.getD_none]
        omega

theorem InsertStepCase.done_memoryUsage_le {node' : TrieNodeWithSize}
    (h : InsertStepCase storage value partialKey memory node (.done node') memory') :
    node'.memoryUsage ≤ node.memoryUsage + 102 + partialKey.len + value.length := by
  cases h with
  | empty =>
      simp only [TrieNodeWithSize.memoryUsage_mk, TrieNode.memoryUsageDirect_leaf,
        NibbleSlice.length_encoded, ValueHandle.memoryUsageValue_inMemory]
      omega
  | branchValue children existingValue memoryUsage _ hmemory =>
      simp only [TrieNodeWithSize.memoryUsage_mk, TrieNode.memoryUsageDirect_branch_eq, Option.map_some,
        Option.getD_some, ValueHandle.memoryUsageValue_inMemory] at hmemory ⊢
      omega
  | leafEqual key existingValue memoryUsage _ _ _ hmemory =>
      have := existingValue.fifty_le_memoryUsageValue
      simp only [TrieNodeWithSize.memoryUsage_mk, TrieNode.memoryUsageDirect_leaf,
        ValueHandle.memoryUsageValue_inMemory] at hmemory ⊢
      omega

theorem InsertStepCase.descend_memoryUsage_le {crumb : Crumb} {child : TrieNodeWithSize}
    {partialKey' : NibbleSlice}
    (h : InsertStepCase storage value partialKey memory node (.descend crumb child partialKey') memory')
    (hs : WellFormed storage (.inMemory node) node.memoryUsage) :
    crumb.memoryUsage + child.memoryUsage ≤ node.memoryUsage + 52 := by
  cases h with
  | branchChild _ _ memoryUsage child _ _ _ _ hchild =>
      simp only [Crumb.memoryUsage, TrieNodeWithSize.memoryUsage_mk]
      omega
  | leafExtension key existingValue memoryUsage existingKey _ hmemory hkey =>
      have hlen := NibbleSlice.length_of_fromEncoded_eq_some hkey
      simp only [Crumb.memoryUsage, TrieNodeWithSize.memoryUsage_mk, TrieNode.memoryUsageDirect_leaf,
        TrieNode.memoryUsageDirect_extension_eq, TrieNode.memoryUsageDirect_branch_eq, Option.map_some,
        Option.getD_some, NibbleSlice.length_encoded] at hmemory ⊢
      omega
  | leafSplit key existingValue memoryUsage existingKey _ hmemory hkey =>
      have hlen := NibbleSlice.length_of_fromEncoded_eq_some hkey
      have hcp := NibbleSlice.commonPrefix_le_len_right partialKey existingKey
      simp only [Crumb.memoryUsage, TrieNodeWithSize.memoryUsage_mk, TrieNode.memoryUsageDirect_leaf,
        TrieNode.memoryUsageDirect_extension_eq, NibbleSlice.length_encoded,
        NibbleSlice.length_encodedLeftmost, NibbleSlice.len_mid] at hmemory ⊢
      omega
  | extensionChild key child memoryUsage _ _ child' _ _ _ _ _ hload =>
      obtain ⟨childUsage, -, hchild, hmu⟩ := hs.extension_inv rfl
      obtain ⟨hchildUsage, -⟩ := hchild.toMutable hload
      simp only [Crumb.memoryUsage, TrieNodeWithSize.memoryUsage_mk,
        TrieNode.memoryUsageDirect_extension_eq] at hmu ⊢
      omega
  | extensionSplit key child memoryUsage existingKey _ hmemory hkey =>
      have hlen := NibbleSlice.length_of_fromEncoded_eq_some hkey
      have hcp := NibbleSlice.commonPrefix_le_len_right partialKey existingKey
      simp only [Crumb.memoryUsage, TrieNodeWithSize.memoryUsage_mk,
        TrieNode.memoryUsageDirect_extension_eq, NibbleSlice.length_encoded,
        NibbleSlice.length_encodedLeftmost, NibbleSlice.len_mid] at hmemory ⊢
      omega

theorem InsertStepCase.again_memoryUsage_le {node' : TrieNodeWithSize}
    (h : InsertStepCase storage value partialKey memory node (.again node') memory') :
    node'.memoryUsage ≤ node.memoryUsage + 50 := by
  cases h with
  | leafBranch key existingValue memoryUsage existingKey _ hmemory hkey =>
      have hlen := NibbleSlice.length_of_fromEncoded_eq_some hkey
      have hbranch := leafToBranch_memoryUsage_le existingKey existingValue
      simp only [TrieNodeWithSize.memoryUsage_mk, TrieNode.memoryUsageDirect_leaf] at hmemory ⊢
      omega
  | extensionBranch key child memoryUsage existingKey _ _ hmemory hkey _ hbranch =>
      have hlen := NibbleSlice.length_of_fromEncoded_eq_some hkey
      have hbound := extensionToBranch_memoryUsage_le hbranch
      simp only [TrieNodeWithSize.memoryUsage_mk, TrieNode.memoryUsageDirect_extension_eq] at hmemory hbound ⊢
      omega

theorem foldl_addChild_memoryUsage (path : List Crumb) (node : TrieNodeWithSize) :
    (path.foldl (fun child crumb => crumb.addChild child) node).memoryUsage =
      (path.map Crumb.memoryUsage).sum + node.memoryUsage := by
  induction path generalizing node with
  | nil => simp
  | cons crumb path ih =>
      rw [List.foldl_cons, ih, Crumb.addChild, TrieNodeWithSize.memoryUsage_mk, List.map_cons, List.sum_cons]
      omega

/-- Over a run of the loop of `insert`, the memory of the path and the node grows by
at most `52` per unit of the rank that bounds its turns, and the last turn by the
leaf with the value. -/
theorem InsertRun.memoryUsage_le {path path' : List Crumb} {node' : TrieNodeWithSize}
    (hrun : InsertRun storage value path node partialKey memory path' node' memory')
    (hs : WellFormed storage (.inMemory node) node.memoryUsage) :
    (path'.map Crumb.memoryUsage).sum + node'.memoryUsage ≤
      (path.map Crumb.memoryUsage).sum + node.memoryUsage +
        52 * (2 * partialKey.len + insertRank node.node) + 102 + partialKey.len + value.length := by
  induction hrun with
  | done hstep =>
      have := hstep.done_memoryUsage_le
      omega
  | @descend _ _ _ _ _ child _ _ _ _ _ hstep _ ih =>
      have hbound := hstep.descend_memoryUsage_le hs
      have hlen := hstep.len_lt
      have hrank := insertRank_le_one child.node
      have hrest := ih (insertStep_descend_wellFormed hstep hs).2
      simp only [List.map_cons, List.sum_cons] at hrest
      omega
  | again hstep _ ih =>
      have hbound := hstep.again_memoryUsage_le
      have hrank := hstep.rank_lt
      have hrest := ih (insertStep_again_wellFormed hstep hs)
      omega

theorem insert_memoryUsage_le {node' : TrieNodeWithSize}
    (h : (insert storage node partialKey value).run memory = .ok (node', memory'))
    (hs : WellFormed storage (.inMemory node) node.memoryUsage) :
    node'.memoryUsage ≤ node.memoryUsage + 105 * partialKey.len + 154 + value.length := by
  obtain ⟨path, node₁, hrun, rfl⟩ := insert_run h
  have hbound := hrun.memoryUsage_le hs
  have hrank := insertRank_le_one node.node
  simp only [List.map_nil, List.sum_nil, Nat.zero_add] at hbound
  rw [foldl_addChild_memoryUsage]
  omega

end Insert

/-! ## `delete` -/

section Delete

variable {storage : TrieStorage} {partialKey : NibbleSlice} {memory memory' : NodesStorage}
  {node : TrieNodeWithSize}

/-- Every turn of the walk of `delete` that descends shortens the rest of the key:
a branch by its nibble, an extension by its key, which is not empty. -/
theorem DeleteStepCase.len_lt {partialKey' : NibbleSlice} {child : TrieNodeWithSize} {crumb : Crumb}
    (h : DeleteStepCase storage partialKey memory node (.descend crumb child partialKey') memory')
    (hs : WellFormed storage (.inMemory node) node.memoryUsage) : partialKey'.len < partialKey.len := by
  cases h with
  | branchChild _ _ _ _ _ _ _ hkey =>
      have := (NibbleSlice.isEmpty_eq_false_iff _).mp hkey
      simp only [NibbleSlice.len_mid]
      omega
  | extensionChild _ _ _ existingKey _ _ _ _ hkey hcommon =>
      obtain ⟨_, ⟨s, b, hs', hlen⟩, -, -⟩ := hs.extension_inv rfl
      rw [hkey, Option.some.injEq, Prod.mk.injEq] at hs'
      obtain ⟨rfl, -⟩ := hs'
      have := NibbleSlice.commonPrefix_le_len_right existingKey partialKey
      simp only [NibbleSlice.len_mid]
      omega

/-- The walk of `delete` leaves at most one crumb per nibble of the key. -/
theorem DeleteRun.length_le {path path' : List Crumb} {node' : TrieNodeWithSize}
    (hrun : DeleteRun storage path node partialKey memory path' node' memory')
    (hs : WellFormed storage (.inMemory node) node.memoryUsage) :
    path'.length ≤ path.length + partialKey.len := by
  induction hrun with
  | done => omega
  | descend hstep _ ih =>
      have hlen := hstep.len_lt hs
      have hrest := ih (deleteStep_descend_wellFormed hstep hs).2
      simp only [List.length_cons] at hrest
      omega

/-- The turn that ends the walk removes a value or nothing. -/
theorem DeleteStepCase.done_memoryUsage_le {node' : TrieNodeWithSize}
    (h : DeleteStepCase storage partialKey memory node (.done node') memory') :
    node'.memoryUsage ≤ node.memoryUsage := by
  cases h with
  | empty | leafDelete | branchEmpty => exact Nat.zero_le _
  | leafKeep _ _ _ _ _ hmemory => exact hmemory
  | branchValue children value memoryUsage _ hmemory =>
      simp only [TrieNodeWithSize.memoryUsage_mk, TrieNode.memoryUsageDirect_branch_eq, Option.map_none,
        Option.getD_none] at hmemory ⊢
      omega
  | branchNone | extensionKeep => exact le_rfl

/-- A turn that descends splits the node's memory between the crumb and the child. -/
theorem DeleteStepCase.descend_memoryUsage_le {crumb : Crumb} {child : TrieNodeWithSize}
    {partialKey' : NibbleSlice}
    (h : DeleteStepCase storage partialKey memory node (.descend crumb child partialKey') memory') :
    crumb.memoryUsage + child.memoryUsage ≤ node.memoryUsage := by
  cases h with
  | branchChild _ _ _ _ _ _ _ _ _ _ hchild | extensionChild _ _ _ _ _ _ _ _ _ _ _ hchild =>
      simp only [Crumb.memoryUsage, TrieNodeWithSize.memoryUsage_mk]
      omega

/-- The walk of `delete` adds no memory. -/
theorem DeleteRun.memoryUsage_le {path path' : List Crumb} {node' : TrieNodeWithSize}
    (hrun : DeleteRun storage path node partialKey memory path' node' memory') :
    (path'.map Crumb.memoryUsage).sum + node'.memoryUsage ≤
      (path.map Crumb.memoryUsage).sum + node.memoryUsage := by
  induction hrun with
  | done hstep =>
      have := hstep.done_memoryUsage_le
      omega
  | descend hstep _ ih =>
      have := hstep.descend_memoryUsage_le
      simp only [List.map_cons, List.sum_cons] at ih
      omega

/-- `fix_extension_node` merges at most the extension's key into its child's, so the node
it returns records no more than the extension over the child. -/
theorem FixExtensionCase.memoryUsage_le {key : List UInt8} {child : NodeHandle} {childUsage : ℕ}
    {node' : TrieNodeWithSize} (hfix : FixExtensionCase storage key memory child node' memory')
    (hchild : WellFormed storage child childUsage) :
    node'.memoryUsage ≤ 50 + 2 * key.length + childUsage := by
  cases hfix with
  | empty => exact Nat.zero_le _
  | leaf childKey value memoryUsage _ existingKey childSlice _ _ newKey hload hmemory hkey hchildKey
      hmerge =>
      have hchildUsage := (hchild.toMutable hload).1
      have hlen := NibbleSlice.length_of_fromEncoded_eq_some hkey
      have hchildLen := NibbleSlice.length_of_fromEncoded_eq_some hchildKey
      have hnewLen := NibbleSlice.length_of_mergeEncoded_eq_some hmerge
      simp only [TrieNodeWithSize.memoryUsage_mk, TrieNode.memoryUsageDirect_leaf] at hchildUsage hmemory ⊢
      omega
  | branch children value memoryUsage _ hload =>
      have hchildUsage := (hchild.toMutable hload).1
      simp only [TrieNodeWithSize.memoryUsage_mk, TrieNode.memoryUsageDirect_extension_eq] at hchildUsage ⊢
      omega
  | extension childKey childChild memoryUsage _ existingKey childSlice _ _ newKey hload hmemory hkey
      hchildKey hmerge =>
      have hchildUsage := (hchild.toMutable hload).1
      have hlen := NibbleSlice.length_of_fromEncoded_eq_some hkey
      have hchildLen := NibbleSlice.length_of_fromEncoded_eq_some hchildKey
      have hnewLen := NibbleSlice.length_of_mergeEncoded_eq_some hmerge
      simp only [TrieNodeWithSize.memoryUsage_mk,
        TrieNode.memoryUsageDirect_extension_eq] at hchildUsage hmemory ⊢
      omega

/-- One turn of `fix_nodes` adds at most two: a branch left with one child becomes an
extension of one nibble over it. -/
theorem FixNodeCase.memoryUsage_le {childMemoryUsage : ℕ} {node' : TrieNodeWithSize}
    (hfix : FixNodeCase storage childMemoryUsage memory node node' memory')
    (hs : WellFormed storage (.inMemory (.mk node.node (node.memoryUsage + childMemoryUsage)))
      (node.memoryUsage + childMemoryUsage)) :
    node'.memoryUsage ≤ node.memoryUsage + childMemoryUsage + 2 := by
  cases hfix with
  | empty | branchEmpty => exact Nat.zero_le _
  | leaf | branch =>
      simp only [TrieNodeWithSize.memoryUsage_mk]
      omega
  | branchLeaf children value memoryUsage =>
      have hdirect := hs.direct_le
      simp only [TrieNodeWithSize.memoryUsage_mk, TrieNodeWithSize.node_mk, TrieNode.memoryUsageDirect_leaf,
        TrieNode.memoryUsageDirect_branch_eq, Option.map_some, Option.getD_some,
        NibbleSlice.length_encoded] at hdirect ⊢
      have hempty : (NibbleSlice.new []).len = 0 := rfl
      omega
  | branchExtension children memoryUsage idx child node' memory' _ _ hchild hfix =>
      obtain ⟨sizes, -, -, hsome, hmu⟩ := hs.branch_inv rfl
      have hbound := hfix.memoryUsage_le (hsome idx child (dropEmptyChildren_eq_some hchild))
      have hlen : (NibbleSlice.new [idx.val.toUInt8 <<< 4]).len = 2 := by
        rw [← NibbleSlice.length_toList, NibbleSlice.toList_new, length_bytesToNibbles]
        rfl
      have hkeyLen := NibbleSlice.length_encodedLeftmost (NibbleSlice.new [idx.val.toUInt8 <<< 4]) 1 false
      have hsize : sizes idx ≤ ∑ i, sizes i := Finset.single_le_sum (fun i _ => Nat.zero_le _) (Finset.mem_univ idx)
      simp only [TrieNode.memoryUsageDirect_branch_eq, Option.map_none, Option.getD_none,
        TrieNodeWithSize.memoryUsage_mk] at hmu ⊢
      rw [hlen] at hkeyLen
      omega
  | extension key child memoryUsage node' memory' hfix =>
      obtain ⟨childUsage, -, hchild, hmu⟩ := hs.extension_inv rfl
      have hbound := hfix.memoryUsage_le hchild
      simp only [TrieNode.memoryUsageDirect_extension_eq, TrieNodeWithSize.memoryUsage_mk] at hmu ⊢
      omega

/-- The pass of `fix_nodes` up the path adds at most two per crumb to the memory of the
path and the node. -/
theorem foldlM_fixNode_memoryUsage_le {path : List Crumb}
    (hpath : ∀ crumb ∈ path, CrumbWellFormed storage crumb) {child node' : TrieNodeWithSize}
    (h : (path.foldlM (fun child crumb => fixNode storage (crumb.plug child) child.memoryUsage)
      child).run memory = .ok (node', memory'))
    (hs : WellFormed storage (.inMemory child) child.memoryUsage) :
    node'.memoryUsage ≤ (path.map Crumb.memoryUsage).sum + child.memoryUsage + 2 * path.length := by
  induction path generalizing child memory with
  | nil =>
      simp only [List.foldlM_nil, run_pure, Except.ok.injEq, Prod.mk.injEq] at h
      rw [← h.1]
      simp
  | cons crumb path ih =>
      rw [List.foldlM_cons, run_bind_eq_ok] at h
      obtain ⟨child₁, memory₁, hfix, h⟩ := h
      have hplug := (hpath crumb List.mem_cons_self).addChild hs
      rw [Crumb.addChild, ← Crumb.memoryUsage_plug crumb child] at hplug
      have hcase := fixNode_cases hfix
      have hbound := hcase.memoryUsage_le hplug
      have hrest := ih (fun c hc => hpath c (List.mem_cons_of_mem crumb hc)) h (hcase.wellFormed hplug)
      simp only [Crumb.memoryUsage_plug] at hbound
      simp only [List.map_cons, List.sum_cons, List.length_cons]
      omega

theorem delete_memoryUsage_le {fuel : ℕ} {node' : TrieNodeWithSize}
    (h : (delete storage node partialKey fuel).run memory = .ok (node', memory'))
    (hs : WellFormed storage (.inMemory node) node.memoryUsage) :
    node'.memoryUsage ≤ node.memoryUsage + 2 * partialKey.len + 2 := by
  obtain ⟨path, node₁, memory₁, hrun, hfix⟩ := delete_run h
  obtain ⟨hpath, hs₁⟩ := hrun.wellFormed (fun _ h => nomatch h) hs
  have hlen := hrun.length_le hs
  have hwalk := hrun.memoryUsage_le
  simp only [List.length_nil, List.map_nil, List.sum_nil, Nat.zero_add] at hlen hwalk
  unfold fixNodes at hfix
  rw [run_bind_eq_ok] at hfix
  obtain ⟨node₂, memory₂, hfix₁, hfold⟩ := hfix
  have hs₀ : WellFormed storage (.inMemory (.mk node₁.node (node₁.memoryUsage + 0)))
      (node₁.memoryUsage + 0) := by
    rw [Nat.add_zero, TrieNodeWithSize.eta]
    exact hs₁
  have hcase := fixNode_cases hfix₁
  have hbound₁ := hcase.memoryUsage_le hs₀
  have hbound := foldlM_fixNode_memoryUsage_le hpath hfold (hcase.wellFormed hs₀)
  omega

end Delete

/-! ## What `flatten_nodes` writes -/

section Writes

variable (hash : List UInt8 → CryptoHash) {storage : TrieStorage}

theorem length_flatMap_finRange {α : Type} (f : Nibble → List α) :
    ((List.finRange 16).flatMap f).length = ∑ i, (f i).length := by
  rw [List.length_flatMap, Fin.sum_univ_def]

theorem ValueHandle.length_writes_le_one (value : ValueHandle) : value.writes.length ≤ 1 := by
  cases value <;> simp [ValueHandle.writes]

theorem ValueHandle.keysFit_of_mem_writes {value : ValueHandle} {c : Stored} (hc : c ∈ value.writes) :
    c.KeysFit := by
  cases value with
  | inMemory bytes =>
      rw [ValueHandle.writes, List.mem_singleton] at hc
      subst hc
      trivial
  | hashAndSize => simp [ValueHandle.writes] at hc

theorem RawTrieNode.keysFit_branch (children : Children CryptoHash) (value : Option ValueRef) :
    (RawTrieNode.branch children value).KeysFit := by
  cases value <;> trivial

theorem handleWrites_of_load {handle : NodeHandle} {node : TrieNodeWithSize}
    (hload : handle.load storage = some node) :
    handleWrites hash handle = [] ∨ handleWrites hash handle = node.writes hash := by
  cases handle with
  | hash => exact .inl rfl
  | inMemory n =>
      rw [NodeHandle.load_inMemory, Option.some.injEq] at hload
      subst hload
      exact .inr rfl

/-- Every node or value `flatten_nodes` writes counts at least fifty in the memory usage. -/
theorem WellFormed.writes_length_le {handle : NodeHandle} {usage : ℕ}
    (h : WellFormed storage handle usage) : 50 * (handleWrites hash handle).length ≤ usage := by
  induction h with
  | empty hload =>
      rcases handleWrites_of_load hash hload with hw | hw <;> rw [hw] <;> rfl
  | @leaf _ key value _ hload _ _ hmu =>
      have hvalue := value.fifty_le_memoryUsageValue
      have hone := value.length_writes_le_one
      rcases handleWrites_of_load hash hload with hw | hw <;> rw [hw]
      · simp
      · simp only [TrieNodeWithSize.writes, List.length_append, List.length_singleton]
        simp only [TrieNode.memoryUsageDirect_leaf] at hmu
        omega
  | @branch _ children value _ sizes hload _ hnone _ hmu ih =>
      rcases handleWrites_of_load hash hload with hw | hw <;> rw [hw]
      · simp
      have hchildren : ∀ i, 50 * (childWrites hash (children i)).length ≤ sizes i := by
        intro i
        cases hi : children i with
        | none => simp [childWrites, hnone i hi]
        | some child => exact ih i child hi
      have hvalue : 50 * ((value.map ValueHandle.writes).getD []).length ≤
          (value.map ValueHandle.memoryUsageValue).getD 0 := by
        cases value with
        | none => simp
        | some v =>
            have := v.fifty_le_memoryUsageValue
            have := v.length_writes_le_one
            simp only [Option.map_some, Option.getD_some]
            omega
      have hsum : 50 * ∑ i, (childWrites hash (children i)).length ≤ ∑ i, sizes i := by
        rw [Finset.mul_sum]
        exact Finset.sum_le_sum fun i _ => hchildren i
      simp only [TrieNodeWithSize.writes, List.length_append, List.length_singleton, length_flatMap_finRange]
      simp only [TrieNode.memoryUsageDirect_branch_eq] at hmu
      omega
  | @extension _ key child _ childUsage hload _ _ hmu ih =>
      rcases handleWrites_of_load hash hload with hw | hw <;> rw [hw]
      · simp
      · simp only [TrieNodeWithSize.writes, List.length_append, List.length_singleton]
        simp only [TrieNode.memoryUsageDirect_extension_eq] at hmu
        omega

/-- Below a memory usage under `2 ^ 33`, every key `flatten_nodes` writes fits Borsh's
`u32` length prefix: a key counts two per byte. -/
theorem WellFormed.writes_keysFit {handle : NodeHandle} {usage : ℕ}
    (h : WellFormed storage handle usage) (hu : usage < 2 ^ 33) :
    ∀ c ∈ handleWrites hash handle, c.KeysFit := by
  induction h with
  | empty hload =>
      rcases handleWrites_of_load hash hload with hw | hw <;> rw [hw] <;> simp [TrieNodeWithSize.writes]
  | @leaf _ key value _ hload _ _ hmu =>
      rcases handleWrites_of_load hash hload with hw | hw <;> rw [hw]
      · simp
      intro c hc
      simp only [TrieNodeWithSize.writes, List.mem_append, List.mem_singleton] at hc
      rcases hc with hc | rfl
      · exact ValueHandle.keysFit_of_mem_writes hc
      · simp only [TrieNode.memoryUsageDirect_leaf] at hmu
        show key.length < 2 ^ 32
        omega
  | @branch _ children value _ sizes hload _ _ _ hmu ih =>
      rcases handleWrites_of_load hash hload with hw | hw <;> rw [hw]
      · simp
      intro c hc
      simp only [TrieNodeWithSize.writes, List.mem_append, List.mem_flatMap, List.mem_singleton] at hc
      rcases hc with (⟨i, -, hc⟩ | hc) | rfl
      · cases hi : children i with
        | none => simp [hi, childWrites] at hc
        | some child =>
            rw [hi, childWrites] at hc
            have hsize : sizes i ≤ ∑ j, sizes j :=
              Finset.single_le_sum (fun j _ => Nat.zero_le _) (Finset.mem_univ i)
            exact ih i child hi (by omega) c hc
      · cases value with
        | none => simp at hc
        | some v => exact ValueHandle.keysFit_of_mem_writes hc
      · exact RawTrieNode.keysFit_branch _ _
  | @extension _ key child _ childUsage hload _ _ hmu ih =>
      rcases handleWrites_of_load hash hload with hw | hw <;> rw [hw]
      · simp
      intro c hc
      simp only [TrieNode.memoryUsageDirect_extension_eq] at hmu
      simp only [TrieNodeWithSize.writes, List.mem_append, List.mem_singleton] at hc
      rcases hc with hc | rfl
      · exact ih (by omega) c hc
      · show key.length < 2 ^ 32
        omega

end Writes

end Nearcore.Trie
