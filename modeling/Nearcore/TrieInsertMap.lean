import Nearcore.TrieMap

/-!
# `Trie::insert` updates the map at one key

Every turn of the loop of `insert` keeps one invariant: the path walked so far
stands for a map with a hole `F`, the node it is at stands for `m`, and `F`
applied to `m` updated at the rest of the key is the map of the whole trie
updated at the whole key.  A turn that ends in `done` has updated `m` itself;
one that descends moves a crumb from the node onto the path; one that goes
`again` rewrites the node into a branch of the same map.  The pass back up the
path then puts the updated map together (`insert_denotes`).
-/

namespace Nearcore.Trie

section Keys

variable {storage : TrieStorage} {hash : List UInt8 → CryptoHash}

theorem Denotes.leaf_encodeNibbles (nibbles : List Nibble) (isLeaf : Bool) (value : ValueHandle)
    (memoryUsage : ℕ) :
    Denotes storage hash
      (.inMemory (.mk (.leaf (NibbleSlice.encodeNibbles nibbles isLeaf) value) memoryUsage))
      (PathMap.single nibbles (value.toRef hash)) := by
  obtain ⟨s, hs, hlist⟩ := NibbleSlice.exists_fromEncoded_encodeNibbles nibbles isLeaf
  subst hlist
  exact .leaf rfl hs

theorem Denotes.extension_encodeNibbles (nibbles : List Nibble) (isLeaf : Bool) {child : NodeHandle}
    {m : List Nibble → Option ValueRef} (hchild : Denotes storage hash child m) (memoryUsage : ℕ) :
    Denotes storage hash
      (.inMemory (.mk (.extension (NibbleSlice.encodeNibbles nibbles isLeaf) child) memoryUsage))
      (PathMap.prefixed nibbles m) := by
  obtain ⟨s, hs, hlist⟩ := NibbleSlice.exists_fromEncoded_encodeNibbles nibbles isLeaf
  subst hlist
  exact .extension rfl hs hchild

theorem CrumbDenotes.extension_encodeNibbles (nibbles : List Nibble) (isLeaf : Bool)
    (memoryUsage : ℕ) :
    CrumbDenotes storage hash (.extension (NibbleSlice.encodeNibbles nibbles isLeaf) memoryUsage)
      (PathMap.prefixed nibbles) := by
  obtain ⟨s, hs, hlist⟩ := NibbleSlice.exists_fromEncoded_encodeNibbles nibbles isLeaf
  subst hlist
  exact .extension hs

theorem Denotes.branch_value (value : ValueHandle) (memoryUsage : ℕ) :
    Denotes storage hash (.inMemory (.mk (.branch (fun _ => none) (some value)) memoryUsage))
      (PathMap.single [] (value.toRef hash)) := by
  rw [PathMap.single_nil]
  exact .inMemory_branch (fun _ _ => rfl) (fun _ _ h => by simp at h)

theorem Denotes.branch_single {index : Nibble} {child : NodeHandle} {m : List Nibble → Option ValueRef}
    (hchild : Denotes storage hash child m) (memoryUsage : ℕ) :
    Denotes storage hash
      (.inMemory (.mk (.branch (Function.update (fun _ => none) index (some child)) none) memoryUsage))
      (PathMap.node none (Function.update (fun _ => PathMap.empty) index m)) := by
  refine .inMemory_branch ?_ ?_
  · intro i hi
    by_cases hindex : i = index
    · subst hindex
      simp at hi
    · rw [Function.update_of_ne hindex]
  · intro i c hi
    by_cases hindex : i = index
    · subst hindex
      simp only [Function.update_self, Option.some.injEq] at hi ⊢
      rw [← hi]
      exact hchild
    · simp [Function.update_of_ne hindex] at hi

theorem Denotes.leafToBranch (existingKey : NibbleSlice) (existingValue : ValueHandle) :
    Denotes storage hash (.inMemory (leafToBranch existingKey existingValue))
      (PathMap.single existingKey.toList (existingValue.toRef hash)) := by
  unfold Trie.leafToBranch
  split
  · next hempty =>
      rw [(NibbleSlice.isEmpty_iff _).mp hempty]
      exact .branch_value _ _
  · next hempty =>
      have hlen := (NibbleSlice.isEmpty_eq_false_iff _).mp (by simpa using hempty)
      rw [NibbleSlice.toList_eq_cons _ hlen, PathMap.single_cons]
      rw [NibbleSlice.encoded_eq]
      exact .branch_single (.leaf_encodeNibbles _ _ _ _) _

theorem Denotes.extensionToBranch {existingKey : NibbleSlice} {child : NodeHandle}
    {childrenMemoryUsage : ℕ} {branchNode : TrieNodeWithSize} {m : List Nibble → Option ValueRef}
    (h : Trie.extensionToBranch existingKey child childrenMemoryUsage = some branchNode)
    (hchild : Denotes storage hash child m) :
    Denotes storage hash (.inMemory branchNode) (PathMap.prefixed existingKey.toList m) := by
  unfold Trie.extensionToBranch at h
  cases hidx : existingKey.at? 0 with
  | none => simp [hidx] at h
  | some idx =>
      have hlen : 0 < existingKey.len := (NibbleSlice.isSome_at?_iff _ _).mp (by simp [hidx])
      have hat : existingKey.at 0 = idx := by simp [NibbleSlice.at, hidx]
      rw [NibbleSlice.toList_eq_cons _ hlen, hat, PathMap.prefixed_cons]
      simp only [hidx, Option.bind_eq_bind, Option.bind_some, Option.pure_def,
        Option.some.injEq] at h
      subst h
      split
      · next hone =>
          have hrest : (existingKey.mid 1).toList = [] := by
            rw [← List.length_eq_zero_iff, NibbleSlice.length_toList, NibbleSlice.len_mid]
            omega
          rw [hrest, PathMap.prefixed_nil]
          exact .branch_single hchild _
      · next hone =>
          rw [NibbleSlice.encoded_eq]
          exact .branch_single (.extension_encodeNibbles _ _ hchild _) _

end Keys

/-! ## One turn of the loop -/

section Step

variable {storage : TrieStorage} {hash : List UInt8 → CryptoHash} {value : List UInt8}
  {partialKey : NibbleSlice} {memory memory' : NodesStorage} {node : TrieNodeWithSize}
  {m : List Nibble → Option ValueRef}

theorem insertStep_done_denotes {node' : TrieNodeWithSize}
    (hstep : InsertStepCase storage value partialKey memory node (.done node') memory')
    (hd : Denotes storage hash (.inMemory node) m) :
    Denotes storage hash (.inMemory node')
      (Function.update m partialKey.toList (some ((ValueHandle.inMemory value).toRef hash))) := by
  cases hstep with
  | empty memoryUsage =>
      rw [hd.empty_inv rfl, PathMap.update_empty_some, NibbleSlice.encoded_eq]
      exact .leaf_encodeNibbles _ _ _ _
  | branchValue children existingValue memoryUsage memory' hmemory hkey hdelete =>
      obtain ⟨maps, hnone, hsome, rfl⟩ := hd.branch_inv rfl
      rw [(NibbleSlice.isEmpty_iff _).mp hkey, PathMap.update_node_nil]
      exact .inMemory_branch hnone hsome
  | leafEqual key existingValue memoryUsage existingKey isLeaf memory' hmemory hkey hcommon hdelete =>
      obtain ⟨s, isLeaf', hs, rfl⟩ := hd.leaf_inv rfl
      rw [hkey, Option.some.injEq, Prod.mk.injEq] at hs
      obtain ⟨rfl, rfl⟩ := hs
      rw [NibbleSlice.toList_eq_of_commonPrefix_eq hcommon.1 hcommon.2, PathMap.update_single_self,
        PathMap.update_empty_some]
      exact .leaf rfl hkey

/-- A turn that descends: the node's map is the crumb's hole filled with the
child's map, and updating the child at the rest of the key updates the node at
its key. -/
theorem insertStep_descend_denotes {crumb : Crumb} {child : TrieNodeWithSize}
    {partialKey' : NibbleSlice}
    (hstep : InsertStepCase storage value partialKey memory node (.descend crumb child partialKey')
      memory')
    (hd : Denotes storage hash (.inMemory node) m) (x : Option ValueRef) :
    ∃ F mc, CrumbDenotes storage hash crumb F ∧ Denotes storage hash (.inMemory child) mc ∧
      F (Function.update mc partialKey'.toList x) = Function.update m partialKey.toList x := by
  cases hstep with
  | branchChild children existingValue memoryUsage child memory' hmemory hkey hload hchild =>
      obtain ⟨maps, hnone, hsome, rfl⟩ := hd.branch_inv rfl
      refine ⟨_, maps (partialKey.at 0), .branch (fun i _ h => hnone i h) (fun i c _ h => hsome i c h),
        ?_, ?_⟩
      · rcases load_of_run_childToMutable hload with ⟨hnil, rfl⟩ | ⟨handle, hsomeChild, hloaded⟩
        · rw [hnone _ hnil]
          exact .empty rfl
        · exact (hsome _ handle hsomeChild).of_load hloaded rfl rfl
      · have hlen := (NibbleSlice.isEmpty_eq_false_iff _).mp hkey
        rw [NibbleSlice.toList_eq_cons partialKey hlen, PathMap.update_node_cons]
  | leafExtension key existingValue memoryUsage existingKey isLeaf hmemory hkey hcommon hzero hlen =>
      obtain ⟨s, isLeaf', hs, rfl⟩ := hd.leaf_inv rfl
      rw [hkey, Option.some.injEq, Prod.mk.injEq] at hs
      obtain ⟨rfl, rfl⟩ := hs
      rw [NibbleSlice.encoded_eq]
      refine ⟨_, _, .extension_encodeNibbles _ _ _, .branch_value _ _, ?_⟩
      rw [hlen, NibbleSlice.toList_eq_append_mid (NibbleSlice.prefix_of_commonPrefix_eq hlen),
        ← PathMap.update_prefixed_append, PathMap.prefixed_single_nil]
  | leafSplit key existingValue memoryUsage existingKey isLeaf hmemory hkey hcommon hzero hlen =>
      obtain ⟨s, isLeaf', hs, rfl⟩ := hd.leaf_inv rfl
      rw [hkey, Option.some.injEq, Prod.mk.injEq] at hs
      obtain ⟨rfl, rfl⟩ := hs
      rw [NibbleSlice.encoded_eq, NibbleSlice.encodedLeftmost_eq]
      refine ⟨_, _, .extension_encodeNibbles _ _ _, .leaf_encodeNibbles _ _ _ _, ?_⟩
      set P := partialKey.toList.take (partialKey.commonPrefix existingKey) with hP
      have hp : partialKey.toList = P ++ (partialKey.mid (partialKey.commonPrefix existingKey)).toList :=
        NibbleSlice.toList_eq_take_append_mid _ _
      have he : existingKey.toList = P ++ (existingKey.mid (partialKey.commonPrefix existingKey)).toList := by
        rw [hP, NibbleSlice.take_toList_commonPrefix]
        exact NibbleSlice.toList_eq_take_append_mid _ _
      rw [he, hp, PathMap.single_append, PathMap.update_prefixed_append]
  | extensionChild key child memoryUsage existingKey isLeaf child' memory' hmemory hkey hzero hlen
      hload =>
      obtain ⟨s, isLeaf', mc, hs, hchild, rfl⟩ := hd.extension_inv rfl
      rw [hkey, Option.some.injEq, Prod.mk.injEq] at hs
      obtain ⟨rfl, rfl⟩ := hs
      refine ⟨_, mc, .extension hkey, hchild.of_load (NodeHandle.load_of_run_toMutable hload) rfl rfl, ?_⟩
      rw [hlen, NibbleSlice.toList_eq_append_mid (NibbleSlice.prefix_of_commonPrefix_eq hlen),
        PathMap.update_prefixed_append]
  | extensionSplit key child memoryUsage existingKey isLeaf hmemory hkey hzero hlen =>
      obtain ⟨s, isLeaf', mc, hs, hchild, rfl⟩ := hd.extension_inv rfl
      rw [hkey, Option.some.injEq, Prod.mk.injEq] at hs
      obtain ⟨rfl, rfl⟩ := hs
      rw [NibbleSlice.encoded_eq, NibbleSlice.encodedLeftmost_eq]
      refine ⟨_, _, .extension_encodeNibbles _ _ _, .extension_encodeNibbles _ _ hchild _, ?_⟩
      rw [← NibbleSlice.take_toList_commonPrefix partialKey existingKey]
      set P := partialKey.toList.take (partialKey.commonPrefix existingKey) with hP
      have hp : partialKey.toList = P ++ (partialKey.mid (partialKey.commonPrefix existingKey)).toList :=
        NibbleSlice.toList_eq_take_append_mid _ _
      have he : existingKey.toList = P ++ (existingKey.mid (partialKey.commonPrefix existingKey)).toList := by
        rw [hP, NibbleSlice.take_toList_commonPrefix]
        exact NibbleSlice.toList_eq_take_append_mid _ _
      rw [he, hp, PathMap.prefixed_append, PathMap.update_prefixed_append]

theorem insertStep_again_denotes {node' : TrieNodeWithSize}
    (hstep : InsertStepCase storage value partialKey memory node (.again node') memory')
    (hd : Denotes storage hash (.inMemory node) m) :
    Denotes storage hash (.inMemory node') m := by
  cases hstep with
  | leafBranch key existingValue memoryUsage existingKey isLeaf hmemory hkey hcommon hzero =>
      obtain ⟨s, isLeaf', hs, rfl⟩ := hd.leaf_inv rfl
      rw [hkey, Option.some.injEq, Prod.mk.injEq] at hs
      obtain ⟨rfl, rfl⟩ := hs
      exact .leafToBranch _ _
  | extensionBranch key child memoryUsage existingKey isLeaf branchNode hmemory hkey hzero hbranch =>
      obtain ⟨s, isLeaf', mc, hs, hchild, rfl⟩ := hd.extension_inv rfl
      rw [hkey, Option.some.injEq, Prod.mk.injEq] at hs
      obtain ⟨rfl, rfl⟩ := hs
      exact .extensionToBranch hbranch hchild

end Step

/-! ## The whole insert -/

section Run

variable {storage : TrieStorage} {hash : List UInt8 → CryptoHash} {value : List UInt8}
  {node node' : TrieNodeWithSize} {partialKey : NibbleSlice} {memory memory' : NodesStorage}
  {m : List Nibble → Option ValueRef}

/-- The invariant of the loop of `insert`, from the first turn to the last. -/
theorem InsertRun.denotes {path path' : List Crumb}
    (hrun : InsertRun storage value path node partialKey memory path' node' memory')
    {F : (List Nibble → Option ValueRef) → List Nibble → Option ValueRef}
    {target : List Nibble → Option ValueRef}
    (hpath : PathDenotes storage hash path F) (hd : Denotes storage hash (.inMemory node) m)
    (htarget : F (Function.update m partialKey.toList
      (some ((ValueHandle.inMemory value).toRef hash))) = target) :
    ∃ F' m', PathDenotes storage hash path' F' ∧ Denotes storage hash (.inMemory node') m' ∧
      F' m' = target := by
  induction hrun generalizing F m with
  | done hstep => exact ⟨F, _, hpath, insertStep_done_denotes hstep hd, htarget⟩
  | descend hstep hrun ih =>
      obtain ⟨Fc, mc, hcrumb, hchild, heq⟩ := insertStep_descend_denotes hstep hd
        (some ((ValueHandle.inMemory value).toRef hash))
      refine ih (.cons hcrumb hpath) hchild ?_
      rw [Function.comp_apply, heq, htarget]
  | again hstep hrun ih => exact ih hpath (insertStep_again_denotes hstep hd) htarget

theorem insert_run (h : (insert storage node partialKey value).run memory = .ok (node', memory')) :
    ∃ path node₁, InsertRun storage value [] node partialKey memory path node₁ memory' ∧
      node' = path.foldl (fun child crumb => crumb.addChild child) node₁ := by
  unfold insert at h
  cases hloop : insertLoop storage value [] node partialKey memory with
  | error e =>
      rw [StateT.run, hloop] at h
      cases h
  | ok r =>
      obtain ⟨⟨path, node₁⟩, memory₁⟩ := r
      rw [StateT.run, hloop] at h
      simp only [bind, Except.bind, pure, Except.pure, Except.ok.injEq, Prod.mk.injEq] at h
      obtain ⟨rfl, rfl⟩ := h
      exact ⟨path, node₁, insertLoop_run hloop, rfl⟩

/-- `Trie::insert` updates the map of the trie at the key, to the inserted
value, and nowhere else. -/
theorem insert_denotes (h : (insert storage node partialKey value).run memory = .ok (node', memory'))
    (hd : Denotes storage hash (.inMemory node) m) :
    Denotes storage hash (.inMemory node')
      (Function.update m partialKey.toList (some ((ValueHandle.inMemory value).toRef hash))) := by
  obtain ⟨path, node₁, hrun, rfl⟩ := insert_run h
  obtain ⟨F, m₁, hpath, hd₁, hF⟩ := hrun.denotes .nil hd rfl
  rw [id_eq] at hF
  rw [← hF]
  exact hpath.foldl_addChild hd₁

end Run

end Nearcore.Trie
