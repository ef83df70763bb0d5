import Nearcore.TrieUpdate

/-!
# The map a trie stands for, and `Trie::lookup`

A trie stands for a map from nibble paths to value references.  `Denotes`
defines it by the kind of each node: a leaf binds its key, a branch its value
at the empty path and each child below its nibble, an extension puts its child
below its key.  A child stored by hash is read through the storage one level
at a time, as `Trie::lookup` and `move_node_to_mutable` read it; a derivation
of `Denotes` is finite, so a handle denotes a map only if every node below it
can be read back and every key decodes.

The main result here is that `Trie::lookup` finds what a stored root denotes,
for every key (`lookup_of_denotes`).
-/

namespace Nearcore.Trie

/-- The value reference `flatten_value` writes for a value: an in-memory value
by its length and hash. -/
def ValueHandle.toRef (hash : List UInt8 → CryptoHash) : ValueHandle → ValueRef
  | .inMemory value => ⟨value.length.toUInt32, hash value⟩
  | .hashAndSize value => value

/-- The node behind a handle, read from storage if needed: the node that
`toMutable` moves to memory, without its change of reference count. -/
def NodeHandle.load (storage : TrieStorage) : NodeHandle → Option TrieNodeWithSize
  | .inMemory node => some node
  | .hash h =>
      match retrieveRawNode storage h with
      | .error _ => none
      | .ok none => some .empty
      | .ok (some node) => some (.fromRaw node)

/-! ## Stored nodes read back -/

theorem TrieNode.new_ne_empty (raw : RawTrieNode) : TrieNode.new raw ≠ .empty := by
  cases raw <;> simp [TrieNode.new]

theorem TrieNode.new_eq_leaf {raw : RawTrieNode} {key : List UInt8} {value : ValueHandle} :
    TrieNode.new raw = .leaf key value ↔ ∃ ref, raw = .leaf key ref ∧ value = .hashAndSize ref := by
  cases raw <;> simp [TrieNode.new, eq_comm]

theorem TrieNode.new_eq_branch {raw : RawTrieNode} {children : Children NodeHandle}
    {value : Option ValueHandle} :
    TrieNode.new raw = .branch children value ↔
      ∃ cs v, raw = RawTrieNode.branch cs v ∧ children = (fun i => (cs i).map .hash) ∧
        value = v.map .hashAndSize := by
  constructor
  · intro h
    cases raw with
    | branchNoValue cs =>
        simp only [TrieNode.new, TrieNode.branch.injEq] at h
        exact ⟨cs, none, rfl, h.1.symm, h.2.symm⟩
    | branchWithValue v cs =>
        simp only [TrieNode.new, TrieNode.branch.injEq] at h
        exact ⟨cs, some v, rfl, h.1.symm, h.2.symm⟩
    | leaf => simp [TrieNode.new] at h
    | extension => simp [TrieNode.new] at h
  · rintro ⟨cs, v, rfl, rfl, rfl⟩
    cases v <;> rfl

theorem TrieNode.new_eq_extension {raw : RawTrieNode} {key : List UInt8} {child : NodeHandle} :
    TrieNode.new raw = .extension key child ↔ ∃ c, raw = .extension key c ∧ child = .hash c := by
  cases raw <;> simp [TrieNode.new, eq_comm]

section Load

variable {storage : TrieStorage} {memory memory' : NodesStorage} {node : TrieNodeWithSize}

@[simp] theorem NodeHandle.load_inMemory (n : TrieNodeWithSize) :
    (NodeHandle.inMemory n).load storage = some n := rfl

theorem NodeHandle.load_hash_eq_some {h : CryptoHash} :
    (NodeHandle.hash h).load storage = some node ↔
      (retrieveRawNode storage h = .ok none ∧ node = .empty) ∨
        ∃ raw, retrieveRawNode storage h = .ok (some raw) ∧ node = .fromRaw raw := by
  simp only [NodeHandle.load]
  cases hretrieve : retrieveRawNode storage h with
  | error e => simp
  | ok r =>
      cases r with
      | none => simp [eq_comm]
      | some raw => simp [eq_comm]

theorem load_of_run_moveNodeToMutable {h : CryptoHash}
    (hrun : (moveNodeToMutable storage h).run memory = .ok (node, memory')) :
    (NodeHandle.hash h).load storage = some node := by
  rw [NodeHandle.load_hash_eq_some]
  unfold moveNodeToMutable at hrun
  split at hrun
  · cases hrun
  · next hretrieve =>
      simp only [run_pure, Except.ok.injEq, Prod.mk.injEq] at hrun
      exact .inl ⟨hretrieve, hrun.1.symm⟩
  · next raw hretrieve =>
      rw [run_bind_eq_ok] at hrun
      obtain ⟨u, memory₁, -, hpure⟩ := hrun
      simp only [run_pure, Except.ok.injEq, Prod.mk.injEq] at hpure
      exact .inr ⟨raw, hretrieve, hpure.1.symm⟩

theorem NodeHandle.load_of_run_toMutable {handle : NodeHandle}
    (hrun : (handle.toMutable storage).run memory = .ok (node, memory')) :
    handle.load storage = some node := by
  cases handle with
  | hash h => exact load_of_run_moveNodeToMutable hrun
  | inMemory n =>
      simp only [NodeHandle.toMutable, run_pure, Except.ok.injEq, Prod.mk.injEq] at hrun
      rw [hrun.1]
      rfl

theorem load_of_run_childToMutable {child : Option NodeHandle}
    (hrun : (childToMutable storage child).run memory = .ok (node, memory')) :
    (child = none ∧ node = .empty) ∨ ∃ handle, child = some handle ∧ handle.load storage = some node := by
  cases child with
  | none =>
      simp only [childToMutable, run_pure, Except.ok.injEq, Prod.mk.injEq] at hrun
      exact .inl ⟨rfl, hrun.1.symm⟩
  | some handle => exact .inr ⟨handle, rfl, NodeHandle.load_of_run_toMutable hrun⟩

end Load

/-! ## A larger storage -/

section Mono

variable {storage storage' : TrieStorage} {k : CryptoHash}

theorem retrieveRawNode_mono (hext : ∀ k c, storage k = some c → storage' k = some c)
    {r : Option RawTrieNodeWithSize} (h : retrieveRawNode storage k = .ok r) :
    retrieveRawNode storage' k = .ok r := by
  unfold retrieveRawNode at h ⊢
  by_cases hk : k = EMPTY_ROOT
  · rw [if_pos hk] at h ⊢
    exact h
  · rw [if_neg hk] at h ⊢
    cases hs : storage k with
    | none => simp [hs] at h
    | some c =>
        rw [hs] at h
        rw [hext k c hs]
        exact h

theorem NodeHandle.load_mono (hext : ∀ k c, storage k = some c → storage' k = some c)
    {handle : NodeHandle} {node : TrieNodeWithSize} (h : handle.load storage = some node) :
    handle.load storage' = some node := by
  cases handle with
  | inMemory n => exact h
  | hash h' =>
      rw [NodeHandle.load_hash_eq_some] at h ⊢
      rcases h with ⟨hr, rfl⟩ | ⟨raw, hr, rfl⟩
      · exact .inl ⟨retrieveRawNode_mono hext hr, rfl⟩
      · exact .inr ⟨raw, retrieveRawNode_mono hext hr, rfl⟩

theorem NodeHandle.load_hash_of_stored {raw : RawTrieNodeWithSize} (hk : k ≠ EMPTY_ROOT)
    (hs : storage k = some (.node raw)) :
    (NodeHandle.hash k).load storage = some (.fromRaw raw) := by
  simp [NodeHandle.load, retrieveRawNode, hk, hs]

/-- The empty root is read as the empty node from any storage. -/
theorem NodeHandle.load_emptyRoot : (NodeHandle.hash EMPTY_ROOT).load storage = some .empty := by
  simp [NodeHandle.load, retrieveRawNode]

end Mono

/-! ## The map of a node -/

section Denotes

variable (storage : TrieStorage) (hash : List UInt8 → CryptoHash)

/-- `Denotes storage hash handle m`: the node behind `handle` stands for the
map `m` from nibble paths to value references. -/
inductive Denotes : NodeHandle → (List Nibble → Option ValueRef) → Prop
  | empty {handle : NodeHandle} {memoryUsage : ℕ}
      (hload : handle.load storage = some (.mk .empty memoryUsage)) :
      Denotes handle PathMap.empty
  | leaf {handle : NodeHandle} {key : List UInt8} {value : ValueHandle} {memoryUsage : ℕ}
      {s : NibbleSlice} {isLeaf : Bool}
      (hload : handle.load storage = some (.mk (.leaf key value) memoryUsage))
      (hkey : NibbleSlice.fromEncoded key = some (s, isLeaf)) :
      Denotes handle (PathMap.single s.toList (value.toRef hash))
  | branch {handle : NodeHandle} {children : Children NodeHandle} {value : Option ValueHandle}
      {memoryUsage : ℕ} {maps : Nibble → List Nibble → Option ValueRef}
      (hload : handle.load storage = some (.mk (.branch children value) memoryUsage))
      (hnone : ∀ i, children i = none → maps i = PathMap.empty)
      (hsome : ∀ i child, children i = some child → Denotes child (maps i)) :
      Denotes handle (PathMap.node (value.map (ValueHandle.toRef hash)) maps)
  | extension {handle : NodeHandle} {key : List UInt8} {child : NodeHandle} {memoryUsage : ℕ}
      {s : NibbleSlice} {isLeaf : Bool} {m : List Nibble → Option ValueRef}
      (hload : handle.load storage = some (.mk (.extension key child) memoryUsage))
      (hkey : NibbleSlice.fromEncoded key = some (s, isLeaf))
      (hchild : Denotes child m) :
      Denotes handle (PathMap.prefixed s.toList m)

end Denotes

namespace Denotes

variable {storage : TrieStorage} {hash : List UInt8 → CryptoHash}
  {handle handle' : NodeHandle} {node node' : TrieNodeWithSize}
  {m m' : List Nibble → Option ValueRef}

theorem inMemory_branch {children : Children NodeHandle} {value : Option ValueHandle}
    {memoryUsage : ℕ} {maps : Nibble → List Nibble → Option ValueRef}
    (hnone : ∀ i, children i = none → maps i = PathMap.empty)
    (hsome : ∀ i child, children i = some child → Denotes storage hash child (maps i)) :
    Denotes storage hash (.inMemory (.mk (.branch children value) memoryUsage))
      (PathMap.node (value.map (ValueHandle.toRef hash)) maps) :=
  .branch rfl hnone hsome

/-- What a handle denotes depends only on the node behind it, not on its
memory usage or on whether it is in memory. -/
theorem of_load (hd : Denotes storage hash handle m) (hload : handle.load storage = some node)
    (hload' : handle'.load storage = some node') (hnode : node.node = node'.node) :
    Denotes storage hash handle' m := by
  obtain ⟨n', mu'⟩ := node'
  simp only [TrieNodeWithSize.node_mk] at hnode
  subst hnode
  cases hd with
  | empty h =>
      rw [hload, Option.some.injEq] at h
      subst h
      exact .empty hload'
  | leaf h hkey =>
      rw [hload, Option.some.injEq] at h
      subst h
      exact .leaf hload' hkey
  | branch h hnone hsome =>
      rw [hload, Option.some.injEq] at h
      subst h
      exact .branch hload' hnone hsome
  | extension h hkey hchild =>
      rw [hload, Option.some.injEq] at h
      subst h
      exact .extension hload' hkey hchild

theorem inMemory_of_load (hd : Denotes storage hash handle m) (hload : handle.load storage = some node)
    (memoryUsage : ℕ) : Denotes storage hash (.inMemory (.mk node.node memoryUsage)) m :=
  hd.of_load hload rfl rfl

/-! ### What a node of each kind denotes -/

section Inversion

variable {memoryUsage : ℕ}

theorem empty_inv (hd : Denotes storage hash handle m)
    (hload : handle.load storage = some (.mk .empty memoryUsage)) : m = PathMap.empty := by
  cases hd with
  | empty => rfl
  | leaf h => simp [hload] at h
  | branch h => simp [hload] at h
  | extension h => simp [hload] at h

theorem leaf_inv {key : List UInt8} {value : ValueHandle} (hd : Denotes storage hash handle m)
    (hload : handle.load storage = some (.mk (.leaf key value) memoryUsage)) :
    ∃ s isLeaf, NibbleSlice.fromEncoded key = some (s, isLeaf) ∧
      m = PathMap.single s.toList (value.toRef hash) := by
  cases hd with
  | leaf h hkey =>
      rw [hload, Option.some.injEq, TrieNodeWithSize.mk.injEq, TrieNode.leaf.injEq] at h
      obtain ⟨⟨rfl, rfl⟩, -⟩ := h
      exact ⟨_, _, hkey, rfl⟩
  | empty h => simp [hload] at h
  | branch h => simp [hload] at h
  | extension h => simp [hload] at h

theorem branch_inv {children : Children NodeHandle} {value : Option ValueHandle}
    (hd : Denotes storage hash handle m)
    (hload : handle.load storage = some (.mk (.branch children value) memoryUsage)) :
    ∃ maps : Nibble → List Nibble → Option ValueRef,
      (∀ i, children i = none → maps i = PathMap.empty) ∧
      (∀ i child, children i = some child → Denotes storage hash child (maps i)) ∧
      m = PathMap.node (value.map (ValueHandle.toRef hash)) maps := by
  cases hd with
  | branch h hnone hsome =>
      rw [hload, Option.some.injEq, TrieNodeWithSize.mk.injEq, TrieNode.branch.injEq] at h
      obtain ⟨⟨rfl, rfl⟩, -⟩ := h
      exact ⟨_, hnone, hsome, rfl⟩
  | empty h => simp [hload] at h
  | leaf h => simp [hload] at h
  | extension h => simp [hload] at h

theorem extension_inv {key : List UInt8} {child : NodeHandle} (hd : Denotes storage hash handle m)
    (hload : handle.load storage = some (.mk (.extension key child) memoryUsage)) :
    ∃ s isLeaf mc, NibbleSlice.fromEncoded key = some (s, isLeaf) ∧
      Denotes storage hash child mc ∧ m = PathMap.prefixed s.toList mc := by
  cases hd with
  | extension h hkey hchild =>
      rw [hload, Option.some.injEq, TrieNodeWithSize.mk.injEq, TrieNode.extension.injEq] at h
      obtain ⟨⟨rfl, rfl⟩, -⟩ := h
      exact ⟨_, _, _, hkey, hchild, rfl⟩
  | empty h => simp [hload] at h
  | leaf h => simp [hload] at h
  | branch h => simp [hload] at h

end Inversion

theorem mono {storage' : TrieStorage} (hext : ∀ k c, storage k = some c → storage' k = some c)
    (hd : Denotes storage hash handle m) : Denotes storage' hash handle m := by
  induction hd with
  | empty hload => exact .empty (NodeHandle.load_mono hext hload)
  | leaf hload hkey => exact .leaf (NodeHandle.load_mono hext hload) hkey
  | branch hload hnone hsome ih => exact .branch (NodeHandle.load_mono hext hload) hnone ih
  | extension hload hkey hchild ih => exact .extension (NodeHandle.load_mono hext hload) hkey ih

theorem unique (hd : Denotes storage hash handle m) (hd' : Denotes storage hash handle m') :
    m = m' := by
  induction hd generalizing m' with
  | empty hload =>
      cases hd' with
      | empty => rfl
      | leaf h => simp [hload] at h
      | branch h => simp [hload] at h
      | extension h => simp [hload] at h
  | leaf hload hkey =>
      cases hd' with
      | leaf h hkey' =>
          rw [hload, Option.some.injEq, TrieNodeWithSize.mk.injEq, TrieNode.leaf.injEq] at h
          obtain ⟨⟨rfl, rfl⟩, -⟩ := h
          rw [hkey, Option.some.injEq, Prod.mk.injEq] at hkey'
          rw [hkey'.1]
      | empty h => simp [hload] at h
      | branch h => simp [hload] at h
      | extension h => simp [hload] at h
  | @branch handle children value memoryUsage maps hload hnone hsome ih =>
      cases hd' with
      | branch h hnone' hsome' =>
          rw [hload, Option.some.injEq, TrieNodeWithSize.mk.injEq, TrieNode.branch.injEq] at h
          obtain ⟨⟨rfl, rfl⟩, -⟩ := h
          congr 1
          funext i
          cases hchild : children i with
          | none => rw [hnone i hchild, hnone' i hchild]
          | some child => exact ih i child hchild (hsome' i child hchild)
      | empty h => simp [hload] at h
      | leaf h => simp [hload] at h
      | extension h => simp [hload] at h
  | extension hload hkey hchild ih =>
      cases hd' with
      | extension h hkey' hchild' =>
          rw [hload, Option.some.injEq, TrieNodeWithSize.mk.injEq, TrieNode.extension.injEq] at h
          obtain ⟨⟨rfl, rfl⟩, -⟩ := h
          rw [hkey, Option.some.injEq, Prod.mk.injEq] at hkey'
          rw [hkey'.1, ih hchild']
      | empty h => simp [hload] at h
      | leaf h => simp [hload] at h
      | branch h => simp [hload] at h

end Denotes

/-! ## The map of a path of crumbs

A crumb stands for a map with a hole: plugging a child that stands for `m`
into its open slot gives a node that stands for `F m`.  A path stands for the
composition of its crumbs, innermost first. -/

section Crumbs

variable (storage : TrieStorage) (hash : List UInt8 → CryptoHash)

inductive CrumbDenotes :
    Crumb → ((List Nibble → Option ValueRef) → List Nibble → Option ValueRef) → Prop
  | branch {children : Children NodeHandle} {index : Nibble} {value : Option ValueHandle}
      {memoryUsage : ℕ} {maps : Nibble → List Nibble → Option ValueRef}
      (hnone : ∀ i, i ≠ index → children i = none → maps i = PathMap.empty)
      (hsome : ∀ i child, i ≠ index → children i = some child → Denotes storage hash child (maps i)) :
      CrumbDenotes (.branch children index value memoryUsage)
        (fun m => PathMap.node (value.map (ValueHandle.toRef hash)) (Function.update maps index m))
  | extension {key : List UInt8} {memoryUsage : ℕ} {s : NibbleSlice} {isLeaf : Bool}
      (hkey : NibbleSlice.fromEncoded key = some (s, isLeaf)) :
      CrumbDenotes (.extension key memoryUsage) (PathMap.prefixed s.toList)

inductive PathDenotes :
    List Crumb → ((List Nibble → Option ValueRef) → List Nibble → Option ValueRef) → Prop
  | nil : PathDenotes [] id
  | cons {crumb : Crumb} {path : List Crumb}
      {F G : (List Nibble → Option ValueRef) → List Nibble → Option ValueRef}
      (hcrumb : CrumbDenotes storage hash crumb F) (hpath : PathDenotes path G) :
      PathDenotes (crumb :: path) (G ∘ F)

end Crumbs

section Plug

variable {storage : TrieStorage} {hash : List UInt8 → CryptoHash} {crumb : Crumb}
  {child : TrieNodeWithSize} {m : List Nibble → Option ValueRef}
  {F : (List Nibble → Option ValueRef) → List Nibble → Option ValueRef}

theorem CrumbDenotes.plug (hcrumb : CrumbDenotes storage hash crumb F)
    (hchild : Denotes storage hash (.inMemory child) m) :
    Denotes storage hash (.inMemory (crumb.plug child)) (F m) := by
  cases hcrumb with
  | @branch children index value memoryUsage maps hnone hsome =>
      refine .branch rfl ?_ ?_
      · intro i hi
        by_cases hindex : i = index
        · subst hindex
          simp at hi
        · rw [Function.update_of_ne hindex] at hi ⊢
          exact hnone i hindex hi
      · intro i c hi
        by_cases hindex : i = index
        · subst hindex
          simp only [Function.update_self, Option.some.injEq] at hi ⊢
          rw [← hi]
          exact hchild
        · rw [Function.update_of_ne hindex] at hi ⊢
          exact hsome i c hindex hi
  | extension hkey => exact .extension rfl hkey hchild

theorem CrumbDenotes.addChild (hcrumb : CrumbDenotes storage hash crumb F)
    (hchild : Denotes storage hash (.inMemory child) m) :
    Denotes storage hash (.inMemory (crumb.addChild child)) (F m) :=
  (hcrumb.plug hchild).of_load rfl rfl rfl

/-- The pass back up a path puts together the map the path stands for. -/
theorem PathDenotes.foldl_addChild {path : List Crumb}
    {G : (List Nibble → Option ValueRef) → List Nibble → Option ValueRef}
    (hpath : PathDenotes storage hash path G) {node : TrieNodeWithSize}
    (hnode : Denotes storage hash (.inMemory node) m) :
    Denotes storage hash (.inMemory (path.foldl (fun child crumb => crumb.addChild child) node))
      (G m) := by
  induction hpath generalizing node m with
  | nil => exact hnode
  | cons hcrumb hpath ih => exact ih (hcrumb.addChild hnode)

end Plug

/-! ## `Trie::lookup` -/

section Lookup

variable {storage : TrieStorage} {hash : List UInt8 → CryptoHash} {fuel : ℕ} {root : CryptoHash}
  {raw : RawTrieNodeWithSize} {key : NibbleSlice}

/-- The turn of `Trie::lookup` at a stored branch, with or without a value. -/
theorem lookup_succ_branch {cs : Children CryptoHash} {v : Option ValueRef}
    (hretrieve : retrieveRawNode storage root = .ok (some raw)) (hnode : raw.node = RawTrieNode.branch cs v) :
    lookup storage (fuel + 1) root key =
      if key.isEmpty then some (.ok v)
      else
        match cs (key.at 0) with
        | some child => lookup storage fuel child (key.mid 1)
        | none => some (.ok none) := by
  rw [lookup, hretrieve]
  dsimp only
  rw [hnode]
  cases v <;> rfl

/-- `Trie::lookup` finds, for every key, what a stored root denotes. -/
theorem lookup_of_denotes {m : List Nibble → Option ValueRef}
    (hd : Denotes storage hash (.hash root) m) (key : NibbleSlice) :
    ∃ fuel, lookup storage fuel root key = some (.ok (m key.toList)) := by
  generalize hroot : NodeHandle.hash root = handle at hd
  induction hd generalizing root key with
  | empty hload =>
      subst hroot
      rcases NodeHandle.load_hash_eq_some.mp hload with ⟨hretrieve, -⟩ | ⟨⟨rawNode, mu⟩, -, hraw⟩
      · exact ⟨1, by simp [lookup, hretrieve]⟩
      · simp only [TrieNodeWithSize.fromRaw, TrieNodeWithSize.mk.injEq] at hraw
        exact absurd hraw.1.symm (TrieNode.new_ne_empty rawNode)
  | @leaf handle existingKey value memoryUsage s isLeaf hload hkey =>
      subst hroot
      rcases NodeHandle.load_hash_eq_some.mp hload with ⟨-, hempty⟩ | ⟨⟨rawNode, mu⟩, hretrieve, hraw⟩
      · simp [TrieNodeWithSize.empty] at hempty
      · simp only [TrieNodeWithSize.fromRaw, TrieNodeWithSize.mk.injEq] at hraw
        obtain ⟨ref, rfl, rfl⟩ := TrieNode.new_eq_leaf.mp hraw.1.symm
        refine ⟨1, ?_⟩
        simp only [lookup, hretrieve, hkey, ValueHandle.toRef, PathMap.single]
        by_cases heq : key.toList = s.toList
        · have hbeq : (s == key) = true := (NibbleSlice.beq_iff _ _).mpr heq.symm
          simp [hbeq, heq]
        · have hbeq : (s == key) = false := by
            rw [Bool.eq_false_iff]
            exact fun h => heq ((NibbleSlice.beq_iff _ _).mp h).symm
          simp [hbeq, heq]
  | @branch handle children value memoryUsage maps hload hnone hsome ih =>
      subst hroot
      rcases NodeHandle.load_hash_eq_some.mp hload with ⟨-, hempty⟩ | ⟨⟨rawNode, mu⟩, hretrieve, hraw⟩
      · simp [TrieNodeWithSize.empty] at hempty
      · simp only [TrieNodeWithSize.fromRaw, TrieNodeWithSize.mk.injEq] at hraw
        obtain ⟨cs, v, hnode, rfl, rfl⟩ := TrieNode.new_eq_branch.mp hraw.1.symm
        cases hempty : key.isEmpty with
        | true =>
            refine ⟨1, ?_⟩
            rw [lookup_succ_branch hretrieve hnode, if_pos hempty,
              (NibbleSlice.isEmpty_iff key).mp hempty, PathMap.node_nil]
            cases v <;> rfl
        | false =>
            have hlen := (NibbleSlice.isEmpty_eq_false_iff key).mp hempty
            rw [NibbleSlice.toList_eq_cons key hlen, PathMap.node_cons]
            cases hc : cs (key.at 0) with
            | none =>
                refine ⟨1, ?_⟩
                rw [lookup_succ_branch hretrieve hnode, if_neg (by simp [hempty]), hc,
                  hnone _ (by simp [hc])]
                rfl
            | some c =>
                obtain ⟨fuel, hfuel⟩ := ih (key.at 0) (.hash c) (by simp [hc]) (key.mid 1) rfl
                refine ⟨fuel + 1, ?_⟩
                rw [lookup_succ_branch hretrieve hnode, if_neg (by simp [hempty]), hc]
                exact hfuel
  | @extension handle existingKey child memoryUsage s isLeaf m hload hkey hchild ih =>
      subst hroot
      rcases NodeHandle.load_hash_eq_some.mp hload with ⟨-, hempty⟩ | ⟨⟨rawNode, mu⟩, hretrieve, hraw⟩
      · simp [TrieNodeWithSize.empty] at hempty
      · simp only [TrieNodeWithSize.fromRaw, TrieNodeWithSize.mk.injEq] at hraw
        obtain ⟨c, rfl, rfl⟩ := TrieNode.new_eq_extension.mp hraw.1.symm
        by_cases hstarts : key.startsWith s = true
        · -- the key runs through the extension: on below its child
          obtain ⟨rest, hrest⟩ := (NibbleSlice.startsWith_iff _ _).mp hstarts
          obtain ⟨fuel, hfuel⟩ := ih (key.mid s.len) rfl
          refine ⟨fuel + 1, ?_⟩
          have hmid : (key.mid s.len).toList = rest := by
            rw [NibbleSlice.toList_mid, ← hrest, ← NibbleSlice.length_toList, List.drop_left]
          simp only [lookup, hretrieve, hkey, hstarts, if_true]
          rw [hfuel, hmid, ← hrest, PathMap.prefixed_apply_append]
        · refine ⟨1, ?_⟩
          have hnot : ¬ s.toList <+: key.toList := fun h => hstarts ((NibbleSlice.startsWith_iff _ _).mpr h)
          simp only [lookup, hretrieve, hkey, hstarts, Bool.false_eq_true, if_false]
          rw [PathMap.prefixed_apply_eq_none _ hnot]

end Lookup

end Nearcore.Trie
