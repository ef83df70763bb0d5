import Nearcore.TrieDeleteMap

/-!
# What `flatten_nodes` writes

`flatten_nodes` turns the in-memory trie into stored nodes.  Its result is
described here without the state: `TrieNodeWithSize.toRaw` is the stored form
of a node, `handleHash` the hash `flatten_nodes` returns for a handle, and
`writes` the nodes and values it counts, in order (`run_flattenNode`).

Read back from a storage that holds every written node under its hash, the
hash of the root stands for the map the in-memory trie stood for
(`Denotes.flatten`).
-/

namespace Nearcore.Trie

section Spec

variable (hash : List UInt8 → CryptoHash)

/-- What `flatten_value` counts: an in-memory value. -/
def ValueHandle.writes : ValueHandle → List Stored
  | .inMemory value => [.value value]
  | .hashAndSize _ => []

mutual

/-- The stored form `flatten_nodes` gives an in-memory node; none for the
empty node, which is not stored. -/
def TrieNodeWithSize.toRaw : TrieNodeWithSize → Option RawTrieNodeWithSize
  | .mk .empty _ => none
  | .mk (.leaf key value) memoryUsage => some ⟨.leaf key (value.toRef hash), memoryUsage⟩
  | .mk (.branch children value) memoryUsage =>
      some ⟨RawTrieNode.branch (fun i => childHash (children i)) (value.map (ValueHandle.toRef hash)),
        memoryUsage⟩
  | .mk (.extension key child) memoryUsage => some ⟨.extension key (handleHash child), memoryUsage⟩

/-- The hash `flatten_nodes` returns for a handle. -/
def handleHash : NodeHandle → CryptoHash
  | .inMemory node =>
      match node.toRaw with
      | none => EMPTY_ROOT
      | some raw => hash raw.toBorsh
  | .hash h => h

def childHash : Option NodeHandle → Option CryptoHash
  | some child => some (handleHash child)
  | none => none

end

mutual

/-- The nodes and values `flatten_nodes` counts for an in-memory node, in the
order it counts them: children first, then the value, then the node. -/
def TrieNodeWithSize.writes : TrieNodeWithSize → List Stored
  | .mk .empty _ => []
  | .mk (.leaf key value) memoryUsage =>
      value.writes ++ [.node ⟨.leaf key (value.toRef hash), memoryUsage⟩]
  | .mk (.branch children value) memoryUsage =>
      (List.finRange 16).flatMap (fun i => childWrites (children i)) ++
        (value.map ValueHandle.writes).getD [] ++
        [.node ⟨RawTrieNode.branch (fun i => childHash hash (children i))
          (value.map (ValueHandle.toRef hash)), memoryUsage⟩]
  | .mk (.extension key child) memoryUsage =>
      handleWrites child ++ [.node ⟨.extension key (handleHash hash child), memoryUsage⟩]

def handleWrites : NodeHandle → List Stored
  | .inMemory node => node.writes
  | .hash _ => []

def childWrites : Option NodeHandle → List Stored
  | some child => handleWrites child
  | none => []

end

/-- The reference count changes once `writes` are counted, one each. -/
def NodesStorage.addWrites (memory : NodesStorage) (writes : List Stored) : NodesStorage :=
  writes.foldl (fun memory c => memory.addToEntry (hash c.bytes) c 1) memory

/-- What Borsh can write: a node whose keys fit their length prefix, or a value. -/
def Stored.KeysFit : Stored → Prop
  | .node n => n.node.KeysFit
  | .value _ => True

instance : DecidablePred Stored.KeysFit := fun c =>
  match c with
  | .node n => inferInstanceAs (Decidable n.node.KeysFit)
  | .value _ => isTrue trivial

/-- What `flatten_nodes` does for one node or value it writes: serializing a
node panics on a key Borsh cannot write, and the count of the hash goes up by
one. -/
def countWrite (c : Stored) : TrieM Unit :=
  if c.KeysFit then NodesStorage.addRefcount (hash c.bytes) c 1 else throw .panic

def countWrites (writes : List Stored) : TrieM Unit := forM writes (countWrite hash)

end Spec

section Run

variable {hash : List UInt8 → CryptoHash}

@[simp] theorem NodesStorage.addWrites_nil (memory : NodesStorage) : memory.addWrites hash [] = memory :=
  rfl

theorem countWrites_append (w₁ w₂ : List Stored) :
    countWrites hash (w₁ ++ w₂) = (do countWrites hash w₁; countWrites hash w₂) :=
  List.forM_append

theorem flattenValue_eq (value : ValueHandle) :
    flattenValue hash value = (fun _ => value.toRef hash) <$> countWrites hash value.writes := by
  cases value with
  | inMemory value =>
      simp [flattenValue, countWrites, countWrite, ValueHandle.writes, ValueHandle.toRef, Stored.KeysFit,
        Stored.bytes]
  | hashAndSize value => simp [flattenValue, countWrites, ValueHandle.writes, ValueHandle.toRef]

theorem storeRawNode_eq (raw : RawTrieNodeWithSize) :
    storeRawNode hash raw = (fun _ => hash raw.toBorsh) <$> countWrites hash [.node raw] := by
  by_cases hkeys : raw.node.KeysFit
  · simp [storeRawNode, countWrites, countWrite, Stored.KeysFit, Stored.bytes, hkeys]
  · simp only [storeRawNode, countWrites, countWrite, Stored.KeysFit, hkeys, if_false,
      List.forM_cons, List.forM_nil]
    rfl

theorem mapM_flattenValue_eq (value : Option ValueHandle) :
    value.mapM (flattenValue hash) = (fun _ => value.map (ValueHandle.toRef hash)) <$>
      countWrites hash ((value.map ValueHandle.writes).getD []) := by
  cases value with
  | none => simp [countWrites]
  | some value => simp [flattenValue_eq]

/-- The loop over the sixteen children of a branch, from any list of distinct
indices: the children's hashes are filled in, their writes counted in order. -/
theorem foldlM_flattenChild_eq {children : Children NodeHandle}
    (ih : ∀ i, flattenChild hash (children i) =
      (fun _ => childHash hash (children i)) <$> countWrites hash (childWrites hash (children i)))
    (l : List Nibble) (hl : l.Nodup) (acc : Children CryptoHash) :
    l.foldlM (fun newChildren i => do
        let child ← flattenChild hash (children i)
        return Function.update newChildren i child) acc =
      (fun _ j => if j ∈ l then childHash hash (children j) else acc j) <$>
        countWrites hash (l.flatMap fun i => childWrites hash (children i)) := by
  induction l generalizing acc with
  | nil => simp [countWrites]
  | cons i l ihl =>
      obtain ⟨hi, hl⟩ := List.nodup_cons.mp hl
      have hupdate : (fun j => if j ∈ l then childHash hash (children j)
            else Function.update acc i (childHash hash (children i)) j) =
          fun j => if j ∈ i :: l then childHash hash (children j) else acc j := by
        funext j
        by_cases hj : j = i
        · subst hj
          simp [hi]
        · simp [hj]
      simp only [List.foldlM_cons, ih i, bind_map_left, bind_assoc, pure_bind, ihl hl, List.flatMap_cons,
        countWrites_append, map_bind]
      congr 1
      funext _
      congr 1
      funext _
      exact hupdate

theorem flattenNode_eq (node : TrieNodeWithSize) :
    flattenNode hash node =
      (fun _ => handleHash hash (.inMemory node)) <$> countWrites hash (node.writes hash) := by
  induction node using TrieNodeWithSize.inMemory_induction with
  | empty memoryUsage => simp [flattenNode, countWrites, TrieNodeWithSize.writes, handleHash,
      TrieNodeWithSize.toRaw]
  | leaf key value memoryUsage =>
      simp only [flattenNode, flattenValue_eq, storeRawNode_eq, bind_map_left, TrieNodeWithSize.writes,
        countWrites_append, map_bind]
      rfl
  | branch children value memoryUsage ih =>
      -- every child's own flattening, from the induction hypothesis
      have hchild : ∀ i, flattenChild hash (children i) =
          (fun _ => childHash hash (children i)) <$> countWrites hash (childWrites hash (children i)) := by
        intro i
        cases hc : children i with
        | none => simp [flattenChild, childWrites, childHash, countWrites]
        | some child =>
            cases child with
            | hash h => simp [flattenChild, flattenHandle, childWrites, handleWrites, childHash,
                handleHash, countWrites]
            | inMemory n =>
                simp only [flattenChild, flattenHandle, ih i n hc, childWrites, handleWrites, childHash,
                  Functor.map_map]
      simp only [flattenNode, foldlM_flattenChild_eq hchild _ (List.nodup_finRange 16),
        mapM_flattenValue_eq, storeRawNode_eq, bind_map_left, TrieNodeWithSize.writes,
        countWrites_append, map_bind, bind_assoc, List.mem_finRange, if_true]
      rfl
  | extension key child memoryUsage ih =>
      have hhandle : flattenHandle hash child =
          (fun _ => handleHash hash child) <$> countWrites hash (handleWrites hash child) := by
        cases child with
        | hash h => simp [flattenHandle, handleWrites, handleHash, countWrites]
        | inMemory n => exact ih n rfl
      simp only [flattenNode, hhandle, storeRawNode_eq, bind_map_left, TrieNodeWithSize.writes,
        countWrites_append, map_bind]
      rfl

theorem run_countWrite_eq_ok {c : Stored} {memory memory' : NodesStorage} {u : Unit}
    (h : (countWrite hash c).run memory = .ok (u, memory')) :
    memory' = memory.addToEntry (hash c.bytes) c 1 := by
  unfold countWrite at h
  split at h
  · exact run_addRefcount_eq_ok h
  · cases h

theorem NodesStorage.weight_addWrites_le (memory : NodesStorage) (writes : List Stored) :
    (memory.addWrites hash writes).weight ≤ memory.weight + writes.length := by
  induction writes generalizing memory with
  | nil => simp
  | cons c writes ih =>
      have hc := memory.weight_addToEntry_le (hash c.bytes) c 1
      have hrest := ih (memory.addToEntry (hash c.bytes) c 1)
      simp only [NodesStorage.addWrites, List.foldl_cons, List.length_cons] at hrest ⊢
      simp only [Int.natAbs_one] at hc
      omega

/-- Writes that Borsh can serialize, with room for their counts below
`2 ^ 31`, are all counted. -/
theorem run_countWrites_of_lt {writes : List Stored} {memory : NodesStorage}
    (hkeys : ∀ c ∈ writes, c.KeysFit) (hweight : memory.weight + writes.length < 2 ^ 31) :
    (countWrites hash writes).run memory = .ok ((), memory.addWrites hash writes) := by
  induction writes generalizing memory with
  | nil => rfl
  | cons c writes ih =>
      simp only [List.length_cons] at hweight
      have hc : (countWrite hash c).run memory = .ok ((), memory.addToEntry (hash c.bytes) c 1) := by
        rw [countWrite, if_pos (hkeys c List.mem_cons_self)]
        exact run_addRefcount_of_lt _ _ _ _ (by simp only [Int.natAbs_one]; omega)
      have hle := memory.weight_addToEntry_le (hash c.bytes) c 1
      simp only [Int.natAbs_one] at hle
      rw [countWrites, List.forM_cons, run_bind_of_run_eq_ok hc]
      exact ih (fun c' hc' => hkeys c' (List.mem_cons_of_mem c hc')) (by omega)

/-- What a successful `flatten_nodes` leaves: every write counted once. -/
theorem run_countWrites_eq_ok {writes : List Stored} {memory memory' : NodesStorage} {u : Unit}
    (h : (countWrites hash writes).run memory = .ok (u, memory')) :
    memory' = memory.addWrites hash writes := by
  induction writes generalizing memory with
  | nil =>
      simp only [countWrites, List.forM_nil, run_pure, Except.ok.injEq, Prod.mk.injEq] at h
      exact h.2.symm
  | cons c writes ih =>
      rw [countWrites, List.forM_cons, run_bind_eq_ok] at h
      obtain ⟨_, memory₁, hc, hrest⟩ := h
      rw [run_countWrite_eq_ok hc] at hrest
      exact ih hrest

end Run

/-! ## The written trie stands for the same map -/

section Denotes

variable {hash : List UInt8 → CryptoHash} {storage storage' : TrieStorage}

theorem TrieNode.new_branch (cs : Children CryptoHash) (v : Option ValueRef) :
    TrieNode.new (RawTrieNode.branch cs v) = .branch (fun i => (cs i).map .hash) (v.map .hashAndSize) := by
  cases v <;> rfl

@[simp] theorem Stored.bytes_node (raw : RawTrieNodeWithSize) : (Stored.node raw).bytes = raw.toBorsh :=
  rfl

theorem handleHash_inMemory {n : TrieNodeWithSize} {raw : RawTrieNodeWithSize}
    (h : n.toRaw hash = some raw) : handleHash hash (.inMemory n) = hash raw.toBorsh := by
  simp [handleHash, h]

theorem map_toRef_map_hashAndSize (value : Option ValueHandle) :
    ((value.map (ValueHandle.toRef hash)).map ValueHandle.hashAndSize).map (ValueHandle.toRef hash) =
      value.map (ValueHandle.toRef hash) := by
  cases value <;> rfl

theorem mem_writes_of_child {children : Children NodeHandle} {value : Option ValueHandle}
    {memoryUsage : ℕ} {i : Nibble} {child : NodeHandle} (h : children i = some child) {c : Stored}
    (hc : c ∈ handleWrites hash child) :
    c ∈ (TrieNodeWithSize.mk (.branch children value) memoryUsage).writes hash := by
  rw [TrieNodeWithSize.writes]
  apply List.mem_append_left
  apply List.mem_append_left
  refine List.mem_flatMap.mpr ⟨i, List.mem_finRange i, ?_⟩
  rw [h]
  exact hc

/-- Read from a storage that holds every written node under its hash, the hash
`flatten_nodes` returns for a handle stands for the map the handle stood for. -/
theorem Denotes.flatten (hext : ∀ k c, storage k = some c → storage' k = some c)
    {handle : NodeHandle} {m : List Nibble → Option ValueRef} (hd : Denotes storage hash handle m)
    (hwritten : ∀ c ∈ handleWrites hash handle,
      storage' (hash c.bytes) = some c ∧ hash c.bytes ≠ EMPTY_ROOT) :
    Denotes storage' hash (.hash (handleHash hash handle)) m := by
  induction hd with
  | @empty handle memoryUsage hload =>
      cases handle with
      | hash h => exact (Denotes.empty hload).mono hext
      | inMemory n =>
          rw [NodeHandle.load_inMemory, Option.some.injEq] at hload
          subst hload
          have hload' : (NodeHandle.hash EMPTY_ROOT).load storage' = some (.mk .empty 0) := by
            simp [NodeHandle.load, retrieveRawNode, TrieNodeWithSize.empty]
          exact .empty hload'
  | @leaf handle key value memoryUsage s isLeaf hload hkey =>
      cases handle with
      | hash h => exact (Denotes.leaf hload hkey).mono hext
      | inMemory n =>
          rw [NodeHandle.load_inMemory, Option.some.injEq] at hload
          subst hload
          have hw := hwritten (.node ⟨.leaf key (value.toRef hash), memoryUsage⟩)
            (by simp [handleWrites, TrieNodeWithSize.writes])
          rw [Stored.bytes_node] at hw
          rw [handleHash_inMemory rfl]
          have hd' : Denotes storage' hash _ _ := .leaf (NodeHandle.load_hash_of_stored hw.2 hw.1) hkey
          exact hd'
  | @branch handle children value memoryUsage maps hload hnone hsome ih =>
      cases handle with
      | hash h => exact (Denotes.branch hload hnone hsome).mono hext
      | inMemory n =>
          rw [NodeHandle.load_inMemory, Option.some.injEq] at hload
          subst hload
          have hw := hwritten (.node ⟨RawTrieNode.branch (fun i => childHash hash (children i))
              (value.map (ValueHandle.toRef hash)), memoryUsage⟩)
            (by simp [handleWrites, TrieNodeWithSize.writes])
          rw [Stored.bytes_node] at hw
          have hload' := NodeHandle.load_hash_of_stored hw.2 hw.1
          rw [TrieNodeWithSize.fromRaw, TrieNode.new_branch] at hload'
          rw [← map_toRef_map_hashAndSize value, handleHash_inMemory rfl]
          refine .branch hload' ?_ ?_
          · intro i hi
            apply hnone i
            cases hc : children i with
            | none => rfl
            | some child => simp [hc, childHash] at hi
          · intro i c hi
            cases hc : children i with
            | none => simp [hc, childHash] at hi
            | some child =>
                simp only [hc, childHash, Option.map_some, Option.some.injEq] at hi
                subst hi
                exact ih i child hc fun c hc' => hwritten c (mem_writes_of_child hc hc')
  | @extension handle key child memoryUsage s isLeaf mc hload hkey hchild ih =>
      cases handle with
      | hash h => exact (Denotes.extension hload hkey hchild).mono hext
      | inMemory n =>
          rw [NodeHandle.load_inMemory, Option.some.injEq] at hload
          subst hload
          have hw := hwritten (.node ⟨.extension key (handleHash hash child), memoryUsage⟩)
            (by simp [handleWrites, TrieNodeWithSize.writes])
          rw [Stored.bytes_node] at hw
          rw [handleHash_inMemory rfl]
          refine .extension (NodeHandle.load_hash_of_stored hw.2 hw.1) hkey (ih fun c hc => ?_)
          exact hwritten c (by
            simp only [handleWrites, TrieNodeWithSize.writes]
            exact List.mem_append_left _ hc)

end Denotes

end Nearcore.Trie
