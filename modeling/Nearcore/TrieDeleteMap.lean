import Nearcore.TrieInsertMap

/-!
# `Trie::delete` removes one key from the map

The walk of `delete` keeps the invariant of the walk of `insert`, with the key
mapped to nothing: the path stands for `F`, the node for `m`, and `F` of `m`
with the rest of the key removed is the map of the whole trie with the key
removed.  The turn the walk stops at removes the key from its node.  Each turn
of `fix_nodes` on the way back up then rewrites a node into one of the same
map: dropping empty children, turning a branch into a leaf, nothing or an
extension, and merging an extension with the node below it.
-/

namespace Nearcore.Trie

section Walk

variable {storage : TrieStorage} {hash : List UInt8 → CryptoHash} {partialKey : NibbleSlice}
  {memory memory' : NodesStorage} {node : TrieNodeWithSize} {m : List Nibble → Option ValueRef}

theorem deleteStep_done_denotes {node' : TrieNodeWithSize}
    (hstep : DeleteStepCase storage partialKey memory node (.done node') memory')
    (hd : Denotes storage hash (.inMemory node) m) :
    Denotes storage hash (.inMemory node') (Function.update m partialKey.toList none) := by
  cases hstep with
  | empty memoryUsage =>
      rw [hd.empty_inv rfl, PathMap.update_empty_none]
      exact .empty rfl
  | leafDelete key value memoryUsage existingKey isLeaf memory' hmemory hkey hsame hdelete =>
      obtain ⟨s, isLeaf', hs, rfl⟩ := hd.leaf_inv rfl
      rw [hkey, Option.some.injEq, Prod.mk.injEq] at hs
      obtain ⟨rfl, rfl⟩ := hs
      rw [← (NibbleSlice.beq_iff _ _).mp hsame, PathMap.update_single_self, PathMap.update_empty_none]
      exact .empty rfl
  | leafKeep key value memoryUsage existingKey isLeaf hmemory hkey hsame =>
      obtain ⟨s, isLeaf', hs, rfl⟩ := hd.leaf_inv rfl
      rw [hkey, Option.some.injEq, Prod.mk.injEq] at hs
      obtain ⟨rfl, rfl⟩ := hs
      have hne : partialKey.toList ≠ existingKey.toList := fun h =>
        Bool.false_ne_true (hsame ▸ (NibbleSlice.beq_iff _ _).mpr h.symm)
      rw [Function.update_eq_self_iff.mpr (by simp [PathMap.single, hne])]
      exact .leaf rfl hkey
  | branchEmpty children value memoryUsage memory' hmemory hkey hdelete hcount =>
      obtain ⟨maps, hnone, hsome, rfl⟩ := hd.branch_inv rfl
      have hmaps : maps = fun _ => PathMap.empty :=
        funext fun i => hnone i ((childrenCount_eq_zero_iff children).mp hcount i)
      rw [(NibbleSlice.isEmpty_iff _).mp hkey, PathMap.update_node_nil, hmaps, PathMap.node_empty]
      exact .empty rfl
  | branchValue children value memoryUsage memory' hmemory hkey hdelete hcount =>
      obtain ⟨maps, hnone, hsome, rfl⟩ := hd.branch_inv rfl
      rw [(NibbleSlice.isEmpty_iff _).mp hkey, PathMap.update_node_nil]
      exact .inMemory_branch hnone hsome
  | branchNone children value memoryUsage hmemory hkey hnone =>
      obtain ⟨maps, hnone', hsome, rfl⟩ := hd.branch_inv rfl
      have hlen := (NibbleSlice.isEmpty_eq_false_iff _).mp hkey
      rw [NibbleSlice.toList_eq_cons _ hlen, PathMap.update_node_cons, hnone' _ hnone,
        PathMap.update_empty_none, ← hnone' _ hnone, Function.update_eq_self]
      exact hd
  | extensionKeep key child memoryUsage existingKey isLeaf hmemory hkey hcommon =>
      obtain ⟨s, isLeaf', mc, hs, hchild, rfl⟩ := hd.extension_inv rfl
      rw [hkey, Option.some.injEq, Prod.mk.injEq] at hs
      obtain ⟨rfl, rfl⟩ := hs
      have hnot : ¬ existingKey.toList <+: partialKey.toList := fun h => hcommon (by
        rw [NibbleSlice.commonPrefix_eq, ← NibbleSlice.length_toList existingKey,
          List.commonPrefixLength_comm, List.commonPrefixLength_eq_length_right_iff]
        exact h)
      rw [Function.update_eq_self_iff.mpr (PathMap.prefixed_apply_eq_none _ hnot).symm]
      exact hd

theorem deleteStep_descend_denotes {crumb : Crumb} {child : TrieNodeWithSize}
    {partialKey' : NibbleSlice}
    (hstep : DeleteStepCase storage partialKey memory node (.descend crumb child partialKey') memory')
    (hd : Denotes storage hash (.inMemory node) m) (x : Option ValueRef) :
    ∃ F mc, CrumbDenotes storage hash crumb F ∧ Denotes storage hash (.inMemory child) mc ∧
      F (Function.update mc partialKey'.toList x) = Function.update m partialKey.toList x := by
  cases hstep with
  | branchChild children value memoryUsage handle child memory' hmemory hkey hhandle hload hchild =>
      obtain ⟨maps, hnone, hsome, rfl⟩ := hd.branch_inv rfl
      refine ⟨_, maps (partialKey.at 0), .branch (fun i _ h => hnone i h) (fun i c _ h => hsome i c h),
        (hsome _ handle hhandle).of_load (NodeHandle.load_of_run_toMutable hload) rfl rfl, ?_⟩
      have hlen := (NibbleSlice.isEmpty_eq_false_iff _).mp hkey
      rw [NibbleSlice.toList_eq_cons partialKey hlen, PathMap.update_node_cons]
  | extensionChild key child memoryUsage existingKey isLeaf child' memory' hmemory hkey hcommon hload
      hchild =>
      obtain ⟨s, isLeaf', mc, hs, hchild, rfl⟩ := hd.extension_inv rfl
      rw [hkey, Option.some.injEq, Prod.mk.injEq] at hs
      obtain ⟨rfl, rfl⟩ := hs
      refine ⟨_, mc, .extension hkey, hchild.of_load (NodeHandle.load_of_run_toMutable hload) rfl rfl, ?_⟩
      rw [NibbleSlice.toList_eq_append_mid (NibbleSlice.prefix_of_commonPrefix_eq_left hcommon),
        PathMap.update_prefixed_append]

/-- The invariant of the walk of `delete`, from the first turn to the last. -/
theorem DeleteRun.denotes {path path' : List Crumb} {node' : TrieNodeWithSize}
    (hrun : DeleteRun storage path node partialKey memory path' node' memory')
    {F : (List Nibble → Option ValueRef) → List Nibble → Option ValueRef}
    {target : List Nibble → Option ValueRef}
    (hpath : PathDenotes storage hash path F) (hd : Denotes storage hash (.inMemory node) m)
    (htarget : F (Function.update m partialKey.toList none) = target) :
    ∃ F' m', PathDenotes storage hash path' F' ∧ Denotes storage hash (.inMemory node') m' ∧
      F' m' = target := by
  induction hrun generalizing F m with
  | done hstep => exact ⟨F, _, hpath, deleteStep_done_denotes hstep hd, htarget⟩
  | descend hstep hrun ih =>
      obtain ⟨Fc, mc, hcrumb, hchild, heq⟩ := deleteStep_descend_denotes hstep hd none
      refine ih (.cons hcrumb hpath) hchild ?_
      rw [Function.comp_apply, heq, htarget]

end Walk

/-! ## The pass back up -/

section Fix

variable {storage : TrieStorage} {hash : List UInt8 → CryptoHash} {memory memory' : NodesStorage}
  {m : List Nibble → Option ValueRef}

/-- `fix_extension_node` keeps the map of the extension it fixes. -/
theorem FixExtensionCase.denotes {key : List UInt8} {child : NodeHandle} {node' : TrieNodeWithSize}
    {memoryUsage : ℕ} (hfix : FixExtensionCase storage key memory child node' memory')
    (hd : Denotes storage hash (.inMemory (.mk (.extension key child) memoryUsage)) m) :
    Denotes storage hash (.inMemory node') m := by
  obtain ⟨s, isLeaf, mc, hs, hchild, rfl⟩ := hd.extension_inv rfl
  cases hfix with
  | empty childMemoryUsage memory' hload =>
      rw [hchild.empty_inv (NodeHandle.load_of_run_toMutable hload), PathMap.prefixed_empty]
      exact .empty rfl
  | leaf childKey value childMemoryUsage memory' existingKey childSlice isLeaf₁ isLeaf'
      newKey hload hmemory hkey hchildKey hmerge =>
      obtain ⟨cs, isLeaf₂, hcs, rfl⟩ := hchild.leaf_inv (NodeHandle.load_of_run_toMutable hload)
      rw [hkey, Option.some.injEq, Prod.mk.injEq] at hs
      rw [hchildKey, Option.some.injEq, Prod.mk.injEq] at hcs
      obtain ⟨rfl, rfl⟩ := hs
      obtain ⟨rfl, rfl⟩ := hcs
      rw [NibbleSlice.eq_encodeNibbles_of_mergeEncoded_eq_some hmerge, ← PathMap.single_append]
      exact .leaf_encodeNibbles _ _ _ _
  | branch children value childMemoryUsage memory' hload hmemory =>
      exact .extension rfl hs (hchild.of_load (NodeHandle.load_of_run_toMutable hload) rfl rfl)
  | extension childKey childChild childMemoryUsage memory' existingKey childSlice isLeaf₁
      isLeaf' newKey hload hmemory hkey hchildKey hmerge =>
      obtain ⟨cs, isLeaf₂, mcc, hcs, hchildChild, rfl⟩ :=
        hchild.extension_inv (NodeHandle.load_of_run_toMutable hload)
      rw [hkey, Option.some.injEq, Prod.mk.injEq] at hs
      rw [hchildKey, Option.some.injEq, Prod.mk.injEq] at hcs
      obtain ⟨rfl, rfl⟩ := hs
      obtain ⟨rfl, rfl⟩ := hcs
      rw [NibbleSlice.eq_encodeNibbles_of_mergeEncoded_eq_some hmerge, ← PathMap.prefixed_append]
      exact .extension_encodeNibbles _ _ hchildChild _

/-- The children a branch keeps in `fix_nodes` stand for the same maps. -/
theorem dropEmptyChildren_denotes {children : Children NodeHandle}
    {maps : Nibble → List Nibble → Option ValueRef}
    (hnone : ∀ i, children i = none → maps i = PathMap.empty)
    (hsome : ∀ i child, children i = some child → Denotes storage hash child (maps i)) :
    (∀ i, dropEmptyChildren children i = none → maps i = PathMap.empty) ∧
      ∀ i child, dropEmptyChildren children i = some child → Denotes storage hash child (maps i) := by
  constructor
  · intro i hi
    rcases dropEmptyChildren_eq_none hi with hi | ⟨memoryUsage, hi⟩
    · exact hnone i hi
    · exact (hsome i _ hi).empty_inv rfl
  · intro i child hi
    exact hsome i child (dropEmptyChildren_eq_some hi)

/-- One turn of `fix_nodes` keeps the map of the node it fixes. -/
theorem FixNodeCase.denotes {childMemoryUsage : ℕ} {node node' : TrieNodeWithSize}
    (hfix : FixNodeCase storage childMemoryUsage memory node node' memory')
    (hd : Denotes storage hash (.inMemory node) m) :
    Denotes storage hash (.inMemory node') m := by
  cases hfix with
  | empty memoryUsage =>
      rw [hd.empty_inv rfl]
      exact .empty rfl
  | leaf key value memoryUsage => exact hd.of_load rfl rfl rfl
  | branchLeaf children value memoryUsage hcount =>
      obtain ⟨maps, hnone, hsome, rfl⟩ := hd.branch_inv rfl
      have hmaps : maps = fun _ => PathMap.empty := funext fun i =>
        (dropEmptyChildren_denotes hnone hsome).1 i
          ((childrenCount_eq_zero_iff _).mp hcount i)
      rw [hmaps, Option.map_some, ← PathMap.single_nil, NibbleSlice.encoded_eq, NibbleSlice.toList_new,
        bytesToNibbles_nil]
      exact .leaf_encodeNibbles _ _ _ _
  | branchEmpty children memoryUsage hcount =>
      obtain ⟨maps, hnone, hsome, rfl⟩ := hd.branch_inv rfl
      have hmaps : maps = fun _ => PathMap.empty := funext fun i =>
        (dropEmptyChildren_denotes hnone hsome).1 i
          ((childrenCount_eq_zero_iff _).mp hcount i)
      rw [hmaps, Option.map_none, PathMap.node_empty]
      exact .empty rfl
  | branchExtension children memoryUsage idx child node' memory' hcount hfirst hchild hfix =>
      obtain ⟨maps, hnone, hsome, rfl⟩ := hd.branch_inv rfl
      obtain ⟨hnone', hsome'⟩ := dropEmptyChildren_denotes hnone hsome
      have hmaps : maps = Function.update (fun _ => PathMap.empty) idx (maps idx) := by
        funext i
        by_cases hi : i = idx
        · subst hi
          simp
        · rw [Function.update_of_ne hi]
          exact hnone' i (eq_none_of_childrenCount_eq_one hcount
            (isSome_of_firstChild_eq_some hfirst) hi)
      have hkey : (NibbleSlice.new [idx.val.toUInt8 <<< 4]).encodedLeftmost 1 false =
          NibbleSlice.encodeNibbles [idx] false := by
        rw [NibbleSlice.encodedLeftmost_eq, NibbleSlice.toList_new, bytesToNibbles_cons,
          bytesToNibbles_nil, hiNibble_shiftLeft_four]
        rfl
      have hext : Denotes storage hash (.inMemory (.mk (.extension
          ((NibbleSlice.new [idx.val.toUInt8 <<< 4]).encodedLeftmost 1 false) child) 0))
          (PathMap.prefixed [idx] (maps idx)) := by
        rw [hkey]
        exact .extension_encodeNibbles _ _ (hsome' idx child hchild) _
      rw [Option.map_none, hmaps, ← PathMap.prefixed_nil (maps idx), ← PathMap.prefixed_cons]
      exact hfix.denotes (by simpa using hext)
  | branch children value memoryUsage hcount hone =>
      obtain ⟨maps, hnone, hsome, rfl⟩ := hd.branch_inv rfl
      obtain ⟨hnone', hsome'⟩ := dropEmptyChildren_denotes hnone hsome
      exact .inMemory_branch hnone' hsome'
  | extension key child memoryUsage node' memory' hfix => exact hfix.denotes hd

end Fix

/-! ## The whole delete -/

section Run

variable {storage : TrieStorage} {hash : List UInt8 → CryptoHash} {node node' : TrieNodeWithSize}
  {partialKey : NibbleSlice} {fuel : ℕ} {memory memory' : NodesStorage}
  {m : List Nibble → Option ValueRef}

/-- The pass of `fix_nodes` up a path puts together the map the path stands for. -/
theorem foldlM_fixNode_denotes {path : List Crumb}
    {F : (List Nibble → Option ValueRef) → List Nibble → Option ValueRef}
    (hpath : PathDenotes storage hash path F) {child : TrieNodeWithSize}
    (h : (path.foldlM (fun child crumb => fixNode storage (crumb.plug child) child.memoryUsage)
      child).run memory = .ok (node', memory'))
    (hd : Denotes storage hash (.inMemory child) m) :
    Denotes storage hash (.inMemory node') (F m) := by
  induction hpath generalizing child memory m with
  | nil =>
      simp only [List.foldlM_nil, run_pure, Except.ok.injEq, Prod.mk.injEq] at h
      rw [← h.1]
      exact hd
  | cons hcrumb hpath ih =>
      rw [List.foldlM_cons, run_bind_eq_ok] at h
      obtain ⟨child₁, memory₁, hfix, h⟩ := h
      exact ih h ((fixNode_cases hfix).denotes (hcrumb.plug hd))

theorem fixNodes_denotes {path : List Crumb}
    {F : (List Nibble → Option ValueRef) → List Nibble → Option ValueRef}
    (h : (fixNodes storage path node).run memory = .ok (node', memory'))
    (hpath : PathDenotes storage hash path F) (hd : Denotes storage hash (.inMemory node) m) :
    Denotes storage hash (.inMemory node') (F m) := by
  unfold fixNodes at h
  rw [run_bind_eq_ok] at h
  obtain ⟨node₁, memory₁, hfix, h⟩ := h
  exact foldlM_fixNode_denotes hpath h ((fixNode_cases hfix).denotes hd)

theorem delete_run (h : (delete storage node partialKey fuel).run memory = .ok (node', memory')) :
    ∃ path node₁ memory₁, DeleteRun storage [] node partialKey memory path node₁ memory₁ ∧
      (fixNodes storage path node₁).run memory₁ = .ok (node', memory') := by
  unfold delete at h
  cases hloop : deleteLoop storage [] node partialKey fuel memory with
  | error e =>
      rw [StateT.run, hloop] at h
      cases h
  | ok r =>
      obtain ⟨⟨path, node₁⟩, memory₁⟩ := r
      rw [StateT.run, hloop] at h
      exact ⟨path, node₁, memory₁, deleteLoop_run hloop, h⟩

/-- `Trie::delete` removes the key from the map of the trie and changes
nothing else. -/
theorem delete_denotes (h : (delete storage node partialKey fuel).run memory = .ok (node', memory'))
    (hd : Denotes storage hash (.inMemory node) m) :
    Denotes storage hash (.inMemory node') (Function.update m partialKey.toList none) := by
  obtain ⟨path, node₁, memory₁, hrun, hfix⟩ := delete_run h
  obtain ⟨F, m₁, hpath, hd₁, hF⟩ := hrun.denotes .nil hd rfl
  rw [id_eq] at hF
  rw [← hF]
  exact fixNodes_denotes hfix hpath hd₁

end Run

end Nearcore.Trie
