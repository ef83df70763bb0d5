import Nearcore.ListFacts
import Nearcore.TrieUpdateMap

/-!
# Memory usage of the nodes of a trie

Every node records a memory usage: its own (`memory_usage_direct`) plus the
memory usage its children record.  `memory_usage_verify` checks this over a
whole trie.  `WellFormed` states the same check as a relation, with what the
walks of `insert` and `delete` need of the nodes they read: every key decodes,
no extension has an empty key, and a value still in memory is shorter than
`2 ^ 32` bytes, so that the `u32` length `flatten_value` stores for it is its
length.

`insert` and `delete` keep every node they rewrite well formed.  On the way down
each node on the path records its children but the open one (`CrumbWellFormed`);
the pass back up adds the new child.  `flatten_nodes` stores the memory usage
of each node with it, so the new root read back from storage passes
`memory_usage_verify` (`update_memoryUsageVerify`).  A value of `2 ^ 32` bytes
or more breaks this: its stored length wraps, and the stored root no longer
adds up (`update_memoryUsageVerify_wraps`).
-/

namespace Nearcore.Trie

/-- `Trie::memory_usage_verify`, on fuel: the memory usage recorded at
`handle`, or `none` where the source's assertion fails or a node cannot be
read. -/
def memoryUsageVerify (storage : TrieStorage) : ℕ → NodeHandle → Option ℕ
  | 0, _ => none
  | fuel + 1, handle => do
      let node ← handle.load storage
      let childrenUsage ← match node.node with
        | .empty => some 0
        | .leaf _ _ => some 0
        | .branch children _ =>
            (List.finRange 16).foldlM (fun usage i =>
              match children i with
              | some child => (memoryUsageVerify storage fuel child).map (usage + ·)
              | none => some usage) 0
        | .extension _ child => memoryUsageVerify storage fuel child
      if node.node.memoryUsageDirect + childrenUsage = node.memoryUsage then some node.memoryUsage
      else none

/-- A value whose length the `u32` of a `ValueRef` holds, or a stored value
that the storage holds. -/
def ValueHandle.Fits (storage : TrieStorage) : ValueHandle → Prop
  | .inMemory value => value.length < 2 ^ 32
  | .hashAndSize value => (storage value.hash).isSome

instance (storage : TrieStorage) (value : ValueHandle) : Decidable (value.Fits storage) := by
  cases value <;> unfold ValueHandle.Fits <;> infer_instance

theorem ValueHandle.Fits.mono {storage storage' : TrieStorage}
    (hext : ∀ k c, storage k = some c → storage' k = some c) {value : ValueHandle}
    (h : value.Fits storage) : value.Fits storage' := by
  cases value with
  | inMemory v => exact h
  | hashAndSize v =>
      obtain ⟨c, hc⟩ := Option.isSome_iff_exists.mp h
      simp [ValueHandle.Fits, hext _ _ hc]

theorem ValueHandle.memoryUsageValue_toRef (hash : List UInt8 → CryptoHash) {storage : TrieStorage}
    {value : ValueHandle} (h : value.Fits storage) :
    (ValueHandle.hashAndSize (value.toRef hash)).memoryUsageValue = value.memoryUsageValue := by
  cases value with
  | inMemory v =>
      simp only [ValueHandle.Fits] at h
      simp [ValueHandle.memoryUsageValue, ValueHandle.toRef, UInt32.toNat_ofNat_of_lt' h]
  | hashAndSize v => rfl

theorem TrieNode.memoryUsageDirect_branch (children children' : Children NodeHandle)
    (value : Option ValueHandle) :
    (TrieNode.branch children value).memoryUsageDirect =
      (TrieNode.branch children' value).memoryUsageDirect := rfl

/-- A key that decodes to at least `minLength` nibbles: a leaf's key decodes,
an extension's key is not empty. -/
def KeyDecodes (key : List UInt8) (minLength : ℕ) : Prop :=
  ∃ s isLeaf, NibbleSlice.fromEncoded key = some (s, isLeaf) ∧ minLength ≤ s.len

theorem keyDecodes_encodeNibbles {nibbles : List Nibble} {minLength : ℕ} (isLeaf : Bool)
    (h : minLength ≤ nibbles.length) : KeyDecodes (NibbleSlice.encodeNibbles nibbles isLeaf) minLength := by
  obtain ⟨s, hs, hlist⟩ := NibbleSlice.exists_fromEncoded_encodeNibbles nibbles isLeaf
  refine ⟨s, isLeaf, hs, ?_⟩
  rw [← NibbleSlice.length_toList, hlist]
  exact h

theorem keyDecodes_encoded (s : NibbleSlice) (isLeaf : Bool) {minLength : ℕ} (h : minLength ≤ s.len) :
    KeyDecodes (s.encoded isLeaf) minLength := by
  rw [NibbleSlice.encoded_eq]
  exact keyDecodes_encodeNibbles isLeaf (by rw [NibbleSlice.length_toList]; exact h)

theorem keyDecodes_encodedLeftmost (s : NibbleSlice) (n : ℕ) (isLeaf : Bool) {minLength : ℕ}
    (h : minLength ≤ min n s.len) : KeyDecodes (s.encodedLeftmost n isLeaf) minLength := by
  rw [NibbleSlice.encodedLeftmost_eq]
  exact keyDecodes_encodeNibbles isLeaf (by simp only [List.length_take, NibbleSlice.length_toList]; exact h)

section WellFormed

variable (storage : TrieStorage)

/-- `WellFormed storage handle memoryUsage`: below `handle`, which records
`memoryUsage`, every node records its own memory usage plus its children's,
every key decodes, no extension key is empty, and every value still in memory
fits a `ValueRef`. -/
inductive WellFormed : NodeHandle → ℕ → Prop
  | empty {handle : NodeHandle} (hload : handle.load storage = some (.mk .empty 0)) : WellFormed handle 0
  | leaf {handle : NodeHandle} {key : List UInt8} {value : ValueHandle} {memoryUsage : ℕ}
      (hload : handle.load storage = some (.mk (.leaf key value) memoryUsage))
      (hkey : KeyDecodes key 0) (hvalue : value.Fits storage)
      (hmu : (TrieNode.leaf key value).memoryUsageDirect = memoryUsage) :
      WellFormed handle memoryUsage
  | branch {handle : NodeHandle} {children : Children NodeHandle} {value : Option ValueHandle}
      {memoryUsage : ℕ} {sizes : Nibble → ℕ}
      (hload : handle.load storage = some (.mk (.branch children value) memoryUsage))
      (hvalue : ∀ v, value = some v → v.Fits storage)
      (hnone : ∀ i, children i = none → sizes i = 0)
      (hsome : ∀ i child, children i = some child → WellFormed child (sizes i))
      (hmu : (TrieNode.branch children value).memoryUsageDirect + ∑ i, sizes i = memoryUsage) :
      WellFormed handle memoryUsage
  | extension {handle : NodeHandle} {key : List UInt8} {child : NodeHandle} {memoryUsage : ℕ}
      {childUsage : ℕ}
      (hload : handle.load storage = some (.mk (.extension key child) memoryUsage))
      (hkey : KeyDecodes key 1) (hchild : WellFormed child childUsage)
      (hmu : (TrieNode.extension key child).memoryUsageDirect + childUsage = memoryUsage) :
      WellFormed handle memoryUsage

/-- A branch crumb records its node and its children but the open one; an
extension crumb records only its node. -/
inductive CrumbWellFormed : Crumb → Prop
  | branch {children : Children NodeHandle} {index : Nibble} {value : Option ValueHandle}
      {memoryUsage : ℕ} {sizes : Nibble → ℕ}
      (hvalue : ∀ v, value = some v → v.Fits storage)
      (hnone : ∀ i, i ≠ index → children i = none → sizes i = 0)
      (hsome : ∀ i child, i ≠ index → children i = some child → WellFormed storage child (sizes i))
      (hmu : (TrieNode.branch children value).memoryUsageDirect +
        ∑ i ∈ Finset.univ.erase index, sizes i = memoryUsage) :
      CrumbWellFormed (.branch children index value memoryUsage)
  | extension {key : List UInt8} {child : NodeHandle} {memoryUsage : ℕ} (hkey : KeyDecodes key 1)
      (hmu : (TrieNode.extension key child).memoryUsageDirect = memoryUsage) :
      CrumbWellFormed (.extension key memoryUsage)

end WellFormed

namespace WellFormed

variable {storage : TrieStorage} {handle handle' : NodeHandle} {node : TrieNodeWithSize}
  {memoryUsage : ℕ}

/-- The memory usage `WellFormed` speaks of is the one the node behind the handle
records. -/
theorem exists_load (h : WellFormed storage handle memoryUsage) :
    ∃ node, handle.load storage = some node ∧ node.memoryUsage = memoryUsage := by
  cases h with
  | empty hload => exact ⟨_, hload, rfl⟩
  | leaf hload => exact ⟨_, hload, rfl⟩
  | branch hload => exact ⟨_, hload, rfl⟩
  | extension hload => exact ⟨_, hload, rfl⟩

theorem of_load (h : WellFormed storage handle memoryUsage) (hload : handle.load storage = some node)
    (hload' : handle'.load storage = some node) : WellFormed storage handle' memoryUsage := by
  cases h with
  | empty h =>
      rw [hload, Option.some.injEq] at h
      subst h
      exact .empty hload'
  | leaf h hkey hvalue hmu =>
      rw [hload, Option.some.injEq] at h
      subst h
      exact .leaf hload' hkey hvalue hmu
  | branch h hvalue hnone hsome hmu =>
      rw [hload, Option.some.injEq] at h
      subst h
      exact .branch hload' hvalue hnone hsome hmu
  | extension h hkey hchild hmu =>
      rw [hload, Option.some.injEq] at h
      subst h
      exact .extension hload' hkey hchild hmu

theorem inMemory_of_load (h : WellFormed storage handle memoryUsage)
    (hload : handle.load storage = some node) : WellFormed storage (.inMemory node) memoryUsage :=
  h.of_load hload rfl

theorem memoryUsage_eq (h : WellFormed storage (.inMemory node) memoryUsage) :
    node.memoryUsage = memoryUsage := by
  obtain ⟨node', hload, hmu⟩ := h.exists_load
  rw [NodeHandle.load_inMemory, Option.some.injEq] at hload
  rw [hload, hmu]

/-- A well formed node records at least its own memory, so the subtraction at the
top of every turn of `insert` and `delete` does not underflow. -/
theorem direct_le (h : WellFormed storage (.inMemory node) memoryUsage) :
    node.node.memoryUsageDirect ≤ memoryUsage := by
  cases h with
  | empty hload =>
      rw [NodeHandle.load_inMemory, Option.some.injEq] at hload
      subst hload
      exact Nat.zero_le 0
  | leaf hload _ _ hmu =>
      rw [NodeHandle.load_inMemory, Option.some.injEq] at hload
      subst hload
      exact hmu.le
  | branch hload _ _ _ hmu =>
      rw [NodeHandle.load_inMemory, Option.some.injEq] at hload
      subst hload
      rw [TrieNodeWithSize.node_mk]
      omega
  | extension hload _ _ hmu =>
      rw [NodeHandle.load_inMemory, Option.some.injEq] at hload
      subst hload
      rw [TrieNodeWithSize.node_mk]
      omega

/-- A child moved to memory is well formed as its handle was, and records what the
handle recorded. -/
theorem toMutable {memory memory' : NodesStorage} (h : WellFormed storage handle memoryUsage)
    (hrun : (handle.toMutable storage).run memory = .ok (node, memory')) :
    node.memoryUsage = memoryUsage ∧ WellFormed storage (.inMemory node) memoryUsage := by
  have hs := h.inMemory_of_load (NodeHandle.load_of_run_toMutable hrun)
  exact ⟨hs.memoryUsage_eq, hs⟩

theorem mono {storage' : TrieStorage} (hext : ∀ k c, storage k = some c → storage' k = some c)
    (h : WellFormed storage handle memoryUsage) : WellFormed storage' handle memoryUsage := by
  induction h with
  | empty hload => exact .empty (NodeHandle.load_mono hext hload)
  | leaf hload hkey hvalue hmu => exact .leaf (NodeHandle.load_mono hext hload) hkey (hvalue.mono hext) hmu
  | branch hload hvalue hnone _ hmu ih =>
      exact .branch (NodeHandle.load_mono hext hload) (fun v hv => (hvalue v hv).mono hext) hnone ih hmu
  | extension hload hkey _ hmu ih => exact .extension (NodeHandle.load_mono hext hload) hkey ih hmu

/-! ### The node of each kind -/

section Inversion

variable {key : List UInt8} {value : ValueHandle} {children : Children NodeHandle}
  {branchValue : Option ValueHandle} {child : NodeHandle} {nodeUsage : ℕ}

theorem empty_inv (h : WellFormed storage handle memoryUsage)
    (hload : handle.load storage = some (.mk .empty nodeUsage)) : memoryUsage = 0 := by
  cases h with
  | empty => rfl
  | leaf h => simp [hload] at h
  | branch h => simp [hload] at h
  | extension h => simp [hload] at h

theorem leaf_inv (h : WellFormed storage handle memoryUsage)
    (hload : handle.load storage = some (.mk (.leaf key value) nodeUsage)) :
    KeyDecodes key 0 ∧ value.Fits storage ∧ (TrieNode.leaf key value).memoryUsageDirect = memoryUsage := by
  cases h with
  | leaf h hkey hvalue hmu =>
      rw [hload, Option.some.injEq, TrieNodeWithSize.mk.injEq, TrieNode.leaf.injEq] at h
      obtain ⟨⟨rfl, rfl⟩, -⟩ := h
      exact ⟨hkey, hvalue, hmu⟩
  | empty h => simp [hload] at h
  | branch h => simp [hload] at h
  | extension h => simp [hload] at h

theorem branch_inv (h : WellFormed storage handle memoryUsage)
    (hload : handle.load storage = some (.mk (.branch children branchValue) nodeUsage)) :
    ∃ sizes : Nibble → ℕ, (∀ v, branchValue = some v → v.Fits storage) ∧
      (∀ i, children i = none → sizes i = 0) ∧
      (∀ i child, children i = some child → WellFormed storage child (sizes i)) ∧
      (TrieNode.branch children branchValue).memoryUsageDirect + ∑ i, sizes i = memoryUsage := by
  cases h with
  | branch h hvalue hnone hsome hmu =>
      rw [hload, Option.some.injEq, TrieNodeWithSize.mk.injEq, TrieNode.branch.injEq] at h
      obtain ⟨⟨rfl, rfl⟩, -⟩ := h
      exact ⟨_, hvalue, hnone, hsome, hmu⟩
  | empty h => simp [hload] at h
  | leaf h => simp [hload] at h
  | extension h => simp [hload] at h

theorem extension_inv (h : WellFormed storage handle memoryUsage)
    (hload : handle.load storage = some (.mk (.extension key child) nodeUsage)) :
    ∃ childUsage, KeyDecodes key 1 ∧ WellFormed storage child childUsage ∧
      (TrieNode.extension key child).memoryUsageDirect + childUsage = memoryUsage := by
  cases h with
  | extension h hkey hchild hmu =>
      rw [hload, Option.some.injEq, TrieNodeWithSize.mk.injEq, TrieNode.extension.injEq] at h
      obtain ⟨⟨rfl, rfl⟩, -⟩ := h
      exact ⟨_, hkey, hchild, hmu⟩
  | empty h => simp [hload] at h
  | leaf h => simp [hload] at h
  | branch h => simp [hload] at h

end Inversion

/-- A branch with one child, as `leafToBranch` and `extensionToBranch` build
it. -/
theorem branch_single {index : Nibble} {child : NodeHandle} {childUsage : ℕ}
    {value : Option ValueHandle} (hvalue : ∀ v, value = some v → v.Fits storage)
    (hchild : WellFormed storage child childUsage) :
    WellFormed storage
      (.inMemory (.mk (.branch (Function.update (fun _ => none) index (some child)) value)
        ((TrieNode.branch (Function.update (fun _ => none) index (some child)) value).memoryUsageDirect +
          childUsage)))
      ((TrieNode.branch (Function.update (fun _ => none) index (some child)) value).memoryUsageDirect +
          childUsage) := by
  refine @WellFormed.branch storage _ _ _ _ (Function.update (fun _ => 0) index childUsage) rfl hvalue ?_ ?_ ?_
  · intro i hi
    by_cases hidx : i = index
    · subst hidx
      simp at hi
    · simp [hidx]
  · intro i c hi
    by_cases hidx : i = index
    · subst hidx
      simp only [Function.update_self, Option.some.injEq] at hi
      subst hi
      simpa using hchild
    · simp [hidx] at hi
  · rw [Finset.sum_update_of_mem (Finset.mem_univ index)]
    simp

end WellFormed

/-! ## `memory_usage_verify` passes on a well formed trie -/

section Verify

variable {storage : TrieStorage}

theorem memoryUsageVerify_mono {fuel fuel' : ℕ} (hle : fuel ≤ fuel') {handle : NodeHandle}
    {memoryUsage : ℕ} (h : memoryUsageVerify storage fuel handle = some memoryUsage) :
    memoryUsageVerify storage fuel' handle = some memoryUsage := by
  induction fuel generalizing fuel' handle memoryUsage with
  | zero => simp [memoryUsageVerify] at h
  | succ fuel ih =>
      obtain ⟨fuel', rfl⟩ : ∃ f, fuel' = f + 1 := ⟨fuel' - 1, by omega⟩
      have hchild : ∀ c u, memoryUsageVerify storage fuel c = some u →
          memoryUsageVerify storage fuel' c = some u := fun c u hc => ih (by omega) hc
      cases hload : handle.load storage with
      | none => simp [memoryUsageVerify, hload] at h
      | some node =>
          obtain ⟨n, nodeUsage⟩ := node
          cases n with
          | empty => simpa [memoryUsageVerify, hload] using h
          | leaf key value => simpa [memoryUsageVerify, hload] using h
          | branch children value =>
              simp only [memoryUsageVerify, hload, Option.bind_eq_bind, Option.bind_some,
                TrieNodeWithSize.node_mk, Option.bind_eq_some_iff] at h ⊢
              obtain ⟨usage, husage, hcheck⟩ := h
              refine ⟨usage, List.foldlM_option_of_imp ?_ _ _ _ husage, hcheck⟩
              intro usage i usage' hstep
              cases hc : children i with
              | none => simpa [hc] using hstep
              | some c =>
                  simp only [hc, Option.map_eq_some_iff] at hstep ⊢
                  obtain ⟨u, hu, rfl⟩ := hstep
                  exact ⟨u, hchild c u hu, rfl⟩
          | extension key child =>
              simp only [memoryUsageVerify, hload, Option.bind_eq_bind, Option.bind_some,
                TrieNodeWithSize.node_mk, Option.bind_eq_some_iff] at h ⊢
              obtain ⟨usage, husage, hcheck⟩ := h
              exact ⟨usage, hchild child usage husage, hcheck⟩

/-- `memory_usage_verify` passes on every well formed handle, with enough fuel, and
returns the memory usage recorded there. -/
theorem WellFormed.exists_memoryUsageVerify {handle : NodeHandle} {memoryUsage : ℕ}
    (h : WellFormed storage handle memoryUsage) :
    ∃ fuel, memoryUsageVerify storage fuel handle = some memoryUsage := by
  induction h with
  | empty hload => exact ⟨1, by simp [memoryUsageVerify, hload, TrieNode.memoryUsageDirect]⟩
  | leaf hload _ _ hmu => exact ⟨1, by simp [memoryUsageVerify, hload, hmu]⟩
  | @branch handle children value memoryUsage sizes hload _ hnone _ hmu ih =>
      have hfuel : ∀ i, ∃ fuel, ∀ child, children i = some child →
          memoryUsageVerify storage fuel child = some (sizes i) := by
        intro i
        cases hc : children i with
        | none => exact ⟨0, fun _ h => by cases h⟩
        | some child =>
            obtain ⟨fuel, hf⟩ := ih i child hc
            exact ⟨fuel, fun c hc' => by cases hc'; exact hf⟩
      choose fuels hfuels using hfuel
      refine ⟨Finset.univ.sup fuels + 1, ?_⟩
      simp only [memoryUsageVerify, hload, Option.bind_eq_bind, Option.bind_some,
        TrieNodeWithSize.node_mk, TrieNodeWithSize.memoryUsage_mk]
      rw [List.foldlM_option_add _ sizes _ _ 0, Nat.zero_add, ← Fin.sum_univ_def]
      · simp [hmu]
      · intro i _ usage
        cases hc : children i with
        | none => simp [hnone i hc]
        | some child =>
            have hverify := memoryUsageVerify_mono (Finset.le_sup (Finset.mem_univ i))
              (hfuels i child hc)
            simp [hverify]
  | extension hload _ _ hmu ih =>
      obtain ⟨fuel, hfuel⟩ := ih
      exact ⟨fuel + 1, by simp [memoryUsageVerify, hload, hfuel, hmu]⟩

end Verify

/-! ## Nodes the walks build -/

section Build

variable {storage : TrieStorage}

/-- A branch with a value and no child, as a leaf whose key ends at a branch
leaves it. -/
theorem WellFormed.branch_value {value : ValueHandle} (hvalue : value.Fits storage) :
    WellFormed storage (.inMemory (.mk (.branch (fun _ => none) (some value))
        (TrieNode.branch (fun _ => none) (some value)).memoryUsageDirect))
      (TrieNode.branch (fun _ => none) (some value)).memoryUsageDirect := by
  refine @WellFormed.branch storage _ _ _ _ (fun _ => 0) rfl ?_ (fun _ _ => rfl) (fun _ _ h => nomatch h) ?_
  · rintro v ⟨⟩
    exact hvalue
  · simp

theorem WellFormed.leafToBranch (existingKey : NibbleSlice) {existingValue : ValueHandle}
    (hvalue : existingValue.Fits storage) :
    WellFormed storage (.inMemory (Trie.leafToBranch existingKey existingValue))
      (Trie.leafToBranch existingKey existingValue).memoryUsage := by
  unfold Trie.leafToBranch
  split
  · exact WellFormed.branch_value hvalue
  · exact WellFormed.branch_single (fun _ h => nomatch h)
      (.leaf rfl (keyDecodes_encoded _ true (Nat.zero_le _)) hvalue rfl)

theorem WellFormed.extensionToBranch {existingKey : NibbleSlice} {child : NodeHandle}
    {childrenMemoryUsage : ℕ} {branchNode : TrieNodeWithSize}
    (hbranch : Trie.extensionToBranch existingKey child childrenMemoryUsage = some branchNode)
    (hchild : WellFormed storage child childrenMemoryUsage) :
    WellFormed storage (.inMemory branchNode) branchNode.memoryUsage := by
  unfold Trie.extensionToBranch at hbranch
  cases hidx : existingKey.at? 0 with
  | none => simp [hidx] at hbranch
  | some idx =>
      simp only [hidx, Option.bind_eq_bind, Option.bind_some, Option.pure_def,
        Option.some.injEq] at hbranch
      subst hbranch
      -- the key has a first nibble, so a key of more than one nibble keeps one below the branch
      have hpos : 0 < existingKey.len := (NibbleSlice.isSome_at?_iff existingKey 0).mp (by simp [hidx])
      split
      · exact WellFormed.branch_single (fun _ h => nomatch h) hchild
      · next hlen =>
          have hkey : KeyDecodes ((existingKey.mid 1).encoded false) 1 :=
            keyDecodes_encoded _ false (by rw [NibbleSlice.len_mid]; omega)
          refine WellFormed.branch_single (fun _ h => nomatch h) (.extension rfl hkey hchild ?_)
          omega

/-- The child at `index` of a well formed branch, moved to memory: well formed, recording
what the branch counts for it. -/
theorem WellFormed.childToMutable {children : Children NodeHandle} {index : Nibble} {size : ℕ}
    {memory memory' : NodesStorage} {child : TrieNodeWithSize}
    (hnone : children index = none → size = 0)
    (hsome : ∀ c, children index = some c → WellFormed storage c size)
    (hrun : (Trie.childToMutable storage (children index)).run memory = .ok (child, memory')) :
    child.memoryUsage = size ∧ WellFormed storage (.inMemory child) size := by
  cases hc : children index with
  | none =>
      rw [hc] at hrun
      simp only [Trie.childToMutable, run_pure, Except.ok.injEq, Prod.mk.injEq] at hrun
      rw [← hrun.1, hnone hc]
      exact ⟨rfl, .empty rfl⟩
  | some c =>
      rw [hc] at hrun
      exact (hsome c hc).toMutable hrun

/-- A well formed branch with the slot `index` left open, and what it counts for the
child there taken off. -/
theorem CrumbWellFormed.open_branch {children : Children NodeHandle} {value : Option ValueHandle}
    {memoryUsage : ℕ} {sizes : Nibble → ℕ} (index : Nibble) (hvalue : ∀ v, value = some v → v.Fits storage)
    (hnone : ∀ i, children i = none → sizes i = 0)
    (hsome : ∀ i child, children i = some child → WellFormed storage child (sizes i))
    (hmu : (TrieNode.branch children value).memoryUsageDirect + ∑ i, sizes i = memoryUsage) :
    CrumbWellFormed storage (.branch children index value (memoryUsage - sizes index)) := by
  refine .branch hvalue (fun i _ => hnone i) (fun i c _ => hsome i c) ?_
  rw [← Finset.add_sum_erase _ _ (Finset.mem_univ index)] at hmu
  omega

/-- A well formed crumb with a well formed child in its open slot, the child's memory
usage added: one step of the pass back up the path. -/
theorem CrumbWellFormed.addChild {crumb : Crumb} {child : TrieNodeWithSize}
    (hcrumb : CrumbWellFormed storage crumb) (hchild : WellFormed storage (.inMemory child) child.memoryUsage) :
    WellFormed storage (.inMemory (crumb.addChild child)) (crumb.addChild child).memoryUsage := by
  cases hcrumb with
  | @branch children index value memoryUsage sizes hvalue hnone hsome hmu =>
      refine @WellFormed.branch storage _ _ _ _ (Function.update sizes index child.memoryUsage) rfl hvalue
        ?_ ?_ ?_
      · intro i hi
        by_cases hidx : i = index
        · subst hidx
          simp at hi
        · rw [Function.update_of_ne hidx] at hi ⊢
          exact hnone i hidx hi
      · intro i c hi
        by_cases hidx : i = index
        · subst hidx
          simp only [Function.update_self, Option.some.injEq] at hi ⊢
          subst hi
          exact hchild
        · rw [Function.update_of_ne hidx] at hi ⊢
          exact hsome i c hidx hi
      · rw [Finset.sum_update_of_mem (Finset.mem_univ index), Finset.sdiff_singleton_eq_erase,
          TrieNode.memoryUsageDirect_branch _ children]
        simp only [Crumb.addChild, Crumb.memoryUsage, TrieNodeWithSize.memoryUsage_mk]
        omega
  | @extension key c memoryUsage hkey hmu =>
      refine .extension rfl hkey hchild ?_
      rw [TrieNode.memoryUsageDirect_extension key _ c]
      simp only [Crumb.addChild, Crumb.memoryUsage, TrieNodeWithSize.memoryUsage_mk]
      omega

/-- The pass back up a path of well formed crumbs from a well formed node. -/
theorem WellFormed.foldl_addChild {path : List Crumb} (hpath : ∀ crumb ∈ path, CrumbWellFormed storage crumb)
    {node : TrieNodeWithSize} (hnode : WellFormed storage (.inMemory node) node.memoryUsage) :
    WellFormed storage (.inMemory (path.foldl (fun child crumb => crumb.addChild child) node))
      (path.foldl (fun child crumb => crumb.addChild child) node).memoryUsage := by
  induction path generalizing node with
  | nil => exact hnode
  | cons crumb path ih =>
      exact ih (fun c hc => hpath c (List.mem_cons_of_mem crumb hc))
        ((hpath crumb List.mem_cons_self).addChild hnode)

end Build

/-! ## `insert` keeps the trie well formed -/

section Insert

variable {storage : TrieStorage} {value : List UInt8} {partialKey : NibbleSlice}
  {memory memory' : NodesStorage} {node : TrieNodeWithSize}

theorem insertStep_done_wellFormed {node' : TrieNodeWithSize}
    (hstep : InsertStepCase storage value partialKey memory node (.done node') memory')
    (hvalue : value.length < 2 ^ 32) (hs : WellFormed storage (.inMemory node) node.memoryUsage) :
    WellFormed storage (.inMemory node') node'.memoryUsage := by
  cases hstep with
  | empty => exact .leaf rfl (keyDecodes_encoded _ true (Nat.zero_le _)) hvalue rfl
  | branchValue children existingValue memoryUsage =>
      obtain ⟨sizes, -, hnone, hsome, hmu⟩ := hs.branch_inv rfl
      refine .branch rfl ?_ hnone hsome ?_
      · rintro v ⟨⟩
        exact hvalue
      · simp only [TrieNodeWithSize.memoryUsage_mk] at hmu ⊢
        omega
  | leafEqual => exact .leaf rfl (hs.leaf_inv rfl).1 hvalue rfl

theorem insertStep_descend_wellFormed {crumb : Crumb} {child : TrieNodeWithSize}
    {partialKey' : NibbleSlice}
    (hstep : InsertStepCase storage value partialKey memory node
      (.descend crumb child partialKey') memory')
    (hs : WellFormed storage (.inMemory node) node.memoryUsage) :
    CrumbWellFormed storage crumb ∧ WellFormed storage (.inMemory child) child.memoryUsage := by
  cases hstep with
  | branchChild children existingValue memoryUsage child memory' _ _ hload =>
      obtain ⟨sizes, hvalue, hnone, hsome, hmu⟩ := hs.branch_inv rfl
      obtain ⟨hchildUsage, hchild⟩ := WellFormed.childToMutable (hnone _) (hsome _) hload
      rw [hchildUsage]
      exact ⟨CrumbWellFormed.open_branch _ hvalue hnone hsome hmu, hchild⟩
  | leafExtension key existingValue memoryUsage existingKey isLeaf _ _ _ hzero hlen =>
      have hkey : KeyDecodes (existingKey.encoded false) 1 := keyDecodes_encoded _ false (by omega)
      exact ⟨.extension hkey rfl, WellFormed.branch_value (hs.leaf_inv rfl).2.1⟩
  | leafSplit key existingValue memoryUsage existingKey isLeaf _ _ _ hzero =>
      have hcp := NibbleSlice.commonPrefix_le_len partialKey existingKey
      have hkey : KeyDecodes (partialKey.encodedLeftmost (partialKey.commonPrefix existingKey) false) 1 :=
        keyDecodes_encodedLeftmost _ _ false (by omega)
      have hchildKey :
          KeyDecodes ((existingKey.mid (partialKey.commonPrefix existingKey)).encoded true) 0 :=
        keyDecodes_encoded _ true (Nat.zero_le _)
      exact ⟨.extension hkey rfl, .leaf rfl hchildKey (hs.leaf_inv rfl).2.1 rfl⟩
  | extensionChild key child memoryUsage existingKey isLeaf child' memory' _ _ _ _ hload =>
      obtain ⟨childUsage, hkey, hchild, -⟩ := hs.extension_inv rfl
      obtain ⟨hchildUsage, hchild'⟩ := hchild.toMutable hload
      rw [hchildUsage]
      exact ⟨.extension hkey rfl, hchild'⟩
  | extensionSplit key child memoryUsage existingKey isLeaf _ _ hzero hlen =>
      obtain ⟨childUsage, -, hchild, hmu⟩ := hs.extension_inv rfl
      have hcp := NibbleSlice.commonPrefix_le_len_right partialKey existingKey
      have hkey :
          KeyDecodes (existingKey.encodedLeftmost (partialKey.commonPrefix existingKey) false) 1 :=
        keyDecodes_encodedLeftmost _ _ false (by omega)
      have hchildKey :
          KeyDecodes ((existingKey.mid (partialKey.commonPrefix existingKey)).encoded false) 1 :=
        keyDecodes_encoded _ false (by rw [NibbleSlice.len_mid]; omega)
      refine ⟨.extension hkey rfl, .extension rfl hchildKey hchild ?_⟩
      simp only [TrieNodeWithSize.memoryUsage_mk] at hmu ⊢
      omega

theorem insertStep_again_wellFormed {node' : TrieNodeWithSize}
    (hstep : InsertStepCase storage value partialKey memory node (.again node') memory')
    (hs : WellFormed storage (.inMemory node) node.memoryUsage) :
    WellFormed storage (.inMemory node') node'.memoryUsage := by
  cases hstep with
  | leafBranch key existingValue memoryUsage existingKey =>
      exact WellFormed.leafToBranch existingKey (hs.leaf_inv rfl).2.1
  | extensionBranch key child memoryUsage existingKey isLeaf branchNode _ _ _ hbranch =>
      obtain ⟨childUsage, -, hchild, hmu⟩ := hs.extension_inv rfl
      simp only [TrieNodeWithSize.memoryUsage_mk] at hmu
      have hchildUsage : memoryUsage - (TrieNode.extension key child).memoryUsageDirect = childUsage := by
        omega
      rw [hchildUsage] at hbranch
      exact WellFormed.extensionToBranch hbranch hchild

/-- Every turn of the loop of `insert` keeps the crumbs of the path and the
node it is at well formed. -/
theorem InsertRun.wellFormed {path path' : List Crumb} {node' : TrieNodeWithSize}
    (hrun : InsertRun storage value path node partialKey memory path' node' memory')
    (hvalue : value.length < 2 ^ 32) (hpath : ∀ crumb ∈ path, CrumbWellFormed storage crumb)
    (hs : WellFormed storage (.inMemory node) node.memoryUsage) :
    (∀ crumb ∈ path', CrumbWellFormed storage crumb) ∧ WellFormed storage (.inMemory node') node'.memoryUsage := by
  induction hrun with
  | done hstep => exact ⟨hpath, insertStep_done_wellFormed hstep hvalue hs⟩
  | descend hstep _ ih =>
      obtain ⟨hcrumb, hchild⟩ := insertStep_descend_wellFormed hstep hs
      refine ih ?_ hchild
      intro c hc
      rcases List.mem_cons.mp hc with rfl | hc
      · exact hcrumb
      · exact hpath c hc
  | again hstep _ ih => exact ih hpath (insertStep_again_wellFormed hstep hs)

theorem insert_wellFormed {node' : TrieNodeWithSize}
    (h : (insert storage node partialKey value).run memory = .ok (node', memory'))
    (hvalue : value.length < 2 ^ 32) (hs : WellFormed storage (.inMemory node) node.memoryUsage) :
    WellFormed storage (.inMemory node') node'.memoryUsage := by
  obtain ⟨path, node₁, hrun, rfl⟩ := insert_run h
  obtain ⟨hpath, hs₁⟩ := hrun.wellFormed hvalue (fun _ h => nomatch h) hs
  exact WellFormed.foldl_addChild hpath hs₁

end Insert

/-! ## `delete` keeps the trie well formed -/

section Delete

variable {storage : TrieStorage} {partialKey : NibbleSlice} {memory memory' : NodesStorage}
  {node : TrieNodeWithSize}

theorem deleteStep_done_wellFormed {node' : TrieNodeWithSize}
    (hstep : DeleteStepCase storage partialKey memory node (.done node') memory')
    (hs : WellFormed storage (.inMemory node) node.memoryUsage) :
    WellFormed storage (.inMemory node') node'.memoryUsage := by
  cases hstep with
  | empty | leafDelete | branchEmpty => exact .empty rfl
  | leafKeep =>
      obtain ⟨hkey, hvalue, -⟩ := hs.leaf_inv rfl
      exact .leaf rfl hkey hvalue rfl
  | branchValue children value memoryUsage =>
      obtain ⟨sizes, hvalue, hnone, hsome, hmu⟩ := hs.branch_inv rfl
      refine .branch rfl (fun _ h => nomatch h) hnone hsome ?_
      simp only [TrieNodeWithSize.memoryUsage_mk] at hmu ⊢
      omega
  | branchNone | extensionKeep => exact hs

theorem deleteStep_descend_wellFormed {crumb : Crumb} {child : TrieNodeWithSize}
    {partialKey' : NibbleSlice}
    (hstep : DeleteStepCase storage partialKey memory node (.descend crumb child partialKey') memory')
    (hs : WellFormed storage (.inMemory node) node.memoryUsage) :
    CrumbWellFormed storage crumb ∧ WellFormed storage (.inMemory child) child.memoryUsage := by
  cases hstep with
  | branchChild children value memoryUsage handle child memory' _ _ hhandle hload =>
      obtain ⟨sizes, hvalue, hnone, hsome, hmu⟩ := hs.branch_inv rfl
      obtain ⟨hchildUsage, hchild⟩ := (hsome _ handle hhandle).toMutable hload
      rw [hchildUsage]
      exact ⟨CrumbWellFormed.open_branch _ hvalue hnone hsome hmu, hchild⟩
  | extensionChild key child memoryUsage existingKey isLeaf child' memory' _ _ _ hload =>
      obtain ⟨childUsage, hkey, hchild, hmu⟩ := hs.extension_inv rfl
      obtain ⟨hchildUsage, hchild'⟩ := hchild.toMutable hload
      simp only [TrieNodeWithSize.memoryUsage_mk] at hmu
      refine ⟨@CrumbWellFormed.extension storage key child _ hkey ?_, hchildUsage ▸ hchild'⟩
      omega

theorem DeleteRun.wellFormed {path path' : List Crumb} {node' : TrieNodeWithSize}
    (hrun : DeleteRun storage path node partialKey memory path' node' memory')
    (hpath : ∀ crumb ∈ path, CrumbWellFormed storage crumb)
    (hs : WellFormed storage (.inMemory node) node.memoryUsage) :
    (∀ crumb ∈ path', CrumbWellFormed storage crumb) ∧ WellFormed storage (.inMemory node') node'.memoryUsage := by
  induction hrun with
  | done hstep => exact ⟨hpath, deleteStep_done_wellFormed hstep hs⟩
  | descend hstep _ ih =>
      obtain ⟨hcrumb, hchild⟩ := deleteStep_descend_wellFormed hstep hs
      refine ih ?_ hchild
      intro c hc
      rcases List.mem_cons.mp hc with rfl | hc
      · exact hcrumb
      · exact hpath c hc

theorem KeyDecodes.le_len {key : List UInt8} {minLength : ℕ} {s : NibbleSlice} {isLeaf : Bool}
    (h : KeyDecodes key minLength) (hkey : NibbleSlice.fromEncoded key = some (s, isLeaf)) :
    minLength ≤ s.len := by
  obtain ⟨s', isLeaf', hkey', hlen⟩ := h
  rw [hkey, Option.some.injEq, Prod.mk.injEq] at hkey'
  rw [hkey'.1]
  exact hlen

/-- `fix_extension_node` builds a well formed node from a well formed child
below a key that is not empty. -/
theorem FixExtensionCase.wellFormed {key : List UInt8} {child : NodeHandle} {childUsage : ℕ}
    {node' : TrieNodeWithSize} (hfix : FixExtensionCase storage key memory child node' memory')
    (hkey : KeyDecodes key 1) (hchild : WellFormed storage child childUsage) :
    WellFormed storage (.inMemory node') node'.memoryUsage := by
  cases hfix with
  | empty => exact .empty rfl
  | leaf childKey value memoryUsage memory' existingKey childSlice isLeaf isLeaf' newKey hload _ _ _
      hmerge =>
      have hnewKey : KeyDecodes newKey 0 := by
        rw [NibbleSlice.eq_encodeNibbles_of_mergeEncoded_eq_some hmerge]
        exact keyDecodes_encodeNibbles true (Nat.zero_le _)
      exact .leaf rfl hnewKey ((hchild.toMutable hload).2.leaf_inv rfl).2.1 rfl
  | branch children value memoryUsage memory' hload =>
      obtain ⟨hchildUsage, hs⟩ := hchild.toMutable hload
      simp only [TrieNodeWithSize.memoryUsage_mk] at hchildUsage
      subst hchildUsage
      refine .extension rfl hkey hs ?_
      simp only [TrieNodeWithSize.memoryUsage_mk]
      omega
  | extension childKey childChild memoryUsage memory' existingKey childSlice isLeaf isLeaf' newKey
      hload _ hexisting _ hmerge =>
      obtain ⟨hchildUsage, hs⟩ := hchild.toMutable hload
      obtain ⟨childChildUsage, -, hchildChild, hmu⟩ := hs.extension_inv rfl
      -- the merged key starts with the extension's own key, which is not empty
      have hnewKey : KeyDecodes newKey 1 := by
        rw [NibbleSlice.eq_encodeNibbles_of_mergeEncoded_eq_some hmerge]
        refine keyDecodes_encodeNibbles false ?_
        have hlen := hkey.le_len hexisting
        simp only [List.length_append, NibbleSlice.length_toList]
        omega
      simp only [TrieNodeWithSize.memoryUsage_mk] at hchildUsage
      subst hchildUsage
      refine .extension rfl hnewKey hchildChild ?_
      simp only [TrieNodeWithSize.memoryUsage_mk]
      omega

/-- `dropEmptyChildren` drops only children a well formed branch counts nothing
for. -/
theorem WellFormed.dropEmptyChildren {children : Children NodeHandle} {sizes : Nibble → ℕ}
    (hnone : ∀ i, children i = none → sizes i = 0)
    (hsome : ∀ i child, children i = some child → WellFormed storage child (sizes i)) (i : Nibble)
    (hi : Trie.dropEmptyChildren children i = none) : sizes i = 0 := by
  rcases dropEmptyChildren_eq_none hi with hc | ⟨memoryUsage, hc⟩
  · exact hnone i hc
  · exact (hsome i _ hc).empty_inv rfl

/-- One turn of `fix_nodes` builds a well formed node from a node that is well formed once
the memory usage of the fixed child below it is added. -/
theorem FixNodeCase.wellFormed {childMemoryUsage : ℕ} {node' : TrieNodeWithSize}
    (hfix : FixNodeCase storage childMemoryUsage memory node node' memory')
    (hs : WellFormed storage (.inMemory (.mk node.node (node.memoryUsage + childMemoryUsage)))
      (node.memoryUsage + childMemoryUsage)) :
    WellFormed storage (.inMemory node') node'.memoryUsage := by
  cases hfix with
  | empty | branchEmpty => exact .empty rfl
  | leaf => exact hs
  | branchLeaf children value memoryUsage =>
      obtain ⟨sizes, hvalue, -⟩ := hs.branch_inv rfl
      exact .leaf rfl (keyDecodes_encoded _ true (Nat.zero_le _)) (hvalue value rfl) rfl
  | branchExtension children memoryUsage idx child node' memory' _ _ hchild hfix =>
      obtain ⟨sizes, -, -, hsome, -⟩ := hs.branch_inv rfl
      have hlen : (NibbleSlice.new [idx.val.toUInt8 <<< 4]).len = 2 := by
        rw [← NibbleSlice.length_toList, NibbleSlice.toList_new, length_bytesToNibbles]
        rfl
      have hkey : KeyDecodes ((NibbleSlice.new [idx.val.toUInt8 <<< 4]).encodedLeftmost 1 false) 1 :=
        keyDecodes_encodedLeftmost _ _ false (by omega)
      exact hfix.wellFormed hkey (hsome idx child (dropEmptyChildren_eq_some hchild))
  | branch children value memoryUsage =>
      obtain ⟨sizes, hvalue, hnone, hsome, hmu⟩ := hs.branch_inv rfl
      refine .branch rfl hvalue (WellFormed.dropEmptyChildren hnone hsome) ?_ ?_
      · intro i c hi
        exact hsome i c (dropEmptyChildren_eq_some hi)
      · rw [TrieNode.memoryUsageDirect_branch _ children]
        exact hmu
  | extension key child memoryUsage node' memory' hfix =>
      obtain ⟨childUsage, hkey, hchild, -⟩ := hs.extension_inv rfl
      exact hfix.wellFormed hkey hchild

theorem foldlM_fixNode_wellFormed {path : List Crumb} (hpath : ∀ crumb ∈ path, CrumbWellFormed storage crumb)
    {child node' : TrieNodeWithSize}
    (h : (path.foldlM (fun child crumb => fixNode storage (crumb.plug child) child.memoryUsage)
      child).run memory = .ok (node', memory'))
    (hs : WellFormed storage (.inMemory child) child.memoryUsage) :
    WellFormed storage (.inMemory node') node'.memoryUsage := by
  induction path generalizing child memory with
  | nil =>
      simp only [List.foldlM_nil, run_pure, Except.ok.injEq, Prod.mk.injEq] at h
      rw [← h.1]
      exact hs
  | cons crumb path ih =>
      rw [List.foldlM_cons, run_bind_eq_ok] at h
      obtain ⟨child₁, memory₁, hfix, h⟩ := h
      have hplug := (hpath crumb List.mem_cons_self).addChild hs
      rw [Crumb.addChild] at hplug
      rw [← Crumb.memoryUsage_plug crumb child] at hplug
      exact ih (fun c hc => hpath c (List.mem_cons_of_mem crumb hc)) h
        ((fixNode_cases hfix).wellFormed hplug)

theorem fixNodes_wellFormed {path : List Crumb} {node' : TrieNodeWithSize}
    (h : (fixNodes storage path node).run memory = .ok (node', memory'))
    (hpath : ∀ crumb ∈ path, CrumbWellFormed storage crumb)
    (hs : WellFormed storage (.inMemory node) node.memoryUsage) :
    WellFormed storage (.inMemory node') node'.memoryUsage := by
  unfold fixNodes at h
  rw [run_bind_eq_ok] at h
  obtain ⟨node₁, memory₁, hfix, h⟩ := h
  have hs₀ : WellFormed storage (.inMemory (.mk node.node (node.memoryUsage + 0))) (node.memoryUsage + 0) := by
    rw [Nat.add_zero, TrieNodeWithSize.eta]
    exact hs
  exact foldlM_fixNode_wellFormed hpath h ((fixNode_cases hfix).wellFormed hs₀)

theorem delete_wellFormed {fuel : ℕ} {node' : TrieNodeWithSize}
    (h : (delete storage node partialKey fuel).run memory = .ok (node', memory'))
    (hs : WellFormed storage (.inMemory node) node.memoryUsage) :
    WellFormed storage (.inMemory node') node'.memoryUsage := by
  obtain ⟨path, node₁, memory₁, hrun, hfix⟩ := delete_run h
  obtain ⟨hpath, hs₁⟩ := hrun.wellFormed (fun _ h => nomatch h) hs
  exact fixNodes_wellFormed hfix hpath hs₁

end Delete

/-! ## The loop of `Trie::update` and `flatten_nodes` -/

section Update

variable {hash : List UInt8 → CryptoHash} {storage storage' : TrieStorage}

/-- Every value of `changes` fits a `ValueRef`. -/
def ValuesFit (changes : List (List UInt8 × Option (List UInt8))) : Prop :=
  ∀ change ∈ changes, ∀ value, change.2 = some value → value.length < 2 ^ 32

theorem applyChange_wellFormed {fuel : ℕ} {change : List UInt8 × Option (List UInt8)}
    (hvalue : ∀ value, change.2 = some value → value.length < 2 ^ 32) {node node' : TrieNodeWithSize}
    {memory memory' : NodesStorage}
    (h : (applyChange storage fuel node change).run memory = .ok (node', memory'))
    (hs : WellFormed storage (.inMemory node) node.memoryUsage) :
    WellFormed storage (.inMemory node') node'.memoryUsage := by
  obtain ⟨key, value⟩ := change
  cases value with
  | some value => exact insert_wellFormed h (hvalue value rfl) hs
  | none => exact delete_wellFormed h hs

theorem foldlM_applyChange_wellFormed {fuel : ℕ} (changes : List (List UInt8 × Option (List UInt8)))
    (hvalues : ValuesFit changes) {node node' : TrieNodeWithSize} {memory memory' : NodesStorage}
    (h : (changes.foldlM (applyChange storage fuel) node).run memory = .ok (node', memory'))
    (hs : WellFormed storage (.inMemory node) node.memoryUsage) :
    WellFormed storage (.inMemory node') node'.memoryUsage := by
  induction changes generalizing node memory with
  | nil =>
      simp only [List.foldlM_nil, run_pure, Except.ok.injEq, Prod.mk.injEq] at h
      rw [← h.1]
      exact hs
  | cons change changes ih =>
      rw [List.foldlM_cons, run_bind_eq_ok] at h
      obtain ⟨node₁, memory₁, hchange, h⟩ := h
      have hrest : ValuesFit changes := fun c hc => hvalues c (List.mem_cons_of_mem change hc)
      exact ih hrest h (applyChange_wellFormed (hvalues change List.mem_cons_self) hchange hs)

theorem applyChanges_wellFormed {root : CryptoHash} {rootUsage : ℕ}
    {changes : List (List UInt8 × Option (List UInt8))} {fuel : ℕ} {node : TrieNodeWithSize}
    {memory : NodesStorage} (hroot : WellFormed storage (.hash root) rootUsage)
    (hvalues : ValuesFit changes)
    (h : applyChanges storage root changes fuel = .ok (node, memory)) :
    WellFormed storage (.inMemory node) node.memoryUsage := by
  unfold applyChanges at h
  cases hmove : (moveNodeToMutable storage root).run NodesStorage.new with
  | error e =>
      rw [hmove] at h
      cases h
  | ok r =>
      obtain ⟨rootNode, memory₁⟩ := r
      rw [hmove] at h
      have hs := hroot.inMemory_of_load (load_of_run_moveNodeToMutable hmove)
      rw [← hs.memoryUsage_eq] at hs
      exact foldlM_applyChange_wellFormed changes hvalues h hs

/-- A value `flatten_nodes` has written, or one stored before, is held by a
storage that holds the writes. -/
theorem ValueHandle.Fits.toRef (hext : ∀ k c, storage k = some c → storage' k = some c)
    {value : ValueHandle} (h : value.Fits storage)
    (hwritten : ∀ c ∈ value.writes, storage' (hash c.bytes) = some c) :
    (ValueHandle.hashAndSize (value.toRef hash)).Fits storage' := by
  cases value with
  | inMemory v =>
      have hv := hwritten (.value v) List.mem_cons_self
      simp [ValueHandle.Fits, ValueHandle.toRef, Stored.bytes] at hv ⊢
      simp [hv]
  | hashAndSize v => exact h.mono hext

/-- Read from a storage that holds every written node under its hash, the hash
`flatten_nodes` returns for a well formed handle is well formed, with the same memory
usage. -/
theorem WellFormed.flatten (hext : ∀ k c, storage k = some c → storage' k = some c)
    {handle : NodeHandle} {memoryUsage : ℕ} (hs : WellFormed storage handle memoryUsage)
    (hwritten : ∀ c ∈ handleWrites hash handle,
      storage' (hash c.bytes) = some c ∧ hash c.bytes ≠ EMPTY_ROOT) :
    WellFormed storage' (.hash (handleHash hash handle)) memoryUsage := by
  induction hs with
  | @empty handle hload =>
      cases handle with
      | hash h => exact (WellFormed.empty hload).mono hext
      | inMemory n =>
          rw [NodeHandle.load_inMemory, Option.some.injEq] at hload
          subst hload
          exact .empty NodeHandle.load_emptyRoot
  | @leaf handle key value memoryUsage hload hkey hvalue hmu =>
      cases handle with
      | hash h => exact (WellFormed.leaf hload hkey hvalue hmu).mono hext
      | inMemory n =>
          rw [NodeHandle.load_inMemory, Option.some.injEq] at hload
          subst hload
          have hw := hwritten (.node ⟨.leaf key (value.toRef hash), memoryUsage⟩)
            (by simp [handleWrites, TrieNodeWithSize.writes])
          rw [Stored.bytes_node] at hw
          rw [handleHash_inMemory rfl]
          have hvalue' := hvalue.toRef hext fun c hc => (hwritten c (by
            simp only [handleWrites, TrieNodeWithSize.writes]
            exact List.mem_append_left _ hc)).1
          refine .leaf (NodeHandle.load_hash_of_stored hw.2 hw.1) hkey hvalue' ?_
          rw [← hmu]
          simp only [TrieNode.memoryUsageDirect, ValueHandle.memoryUsageValue_toRef hash hvalue]
  | @branch handle children value memoryUsage sizes hload hvalue hnone hsome hmu ih =>
      cases handle with
      | hash h => exact (WellFormed.branch hload hvalue hnone hsome hmu).mono hext
      | inMemory n =>
          rw [NodeHandle.load_inMemory, Option.some.injEq] at hload
          subst hload
          have hw := hwritten (.node ⟨RawTrieNode.branch (fun i => childHash hash (children i))
              (value.map (ValueHandle.toRef hash)), memoryUsage⟩)
            (by simp [handleWrites, TrieNodeWithSize.writes])
          rw [Stored.bytes_node] at hw
          have hload' := NodeHandle.load_hash_of_stored hw.2 hw.1
          rw [TrieNodeWithSize.fromRaw, TrieNode.new_branch] at hload'
          rw [handleHash_inMemory rfl]
          refine @WellFormed.branch storage' _ _ _ _ sizes hload' ?_ ?_ ?_ ?_
          · intro v hv
            cases value with
            | none => simp at hv
            | some value =>
                simp only [Option.map_some, Option.some.injEq] at hv
                subst hv
                exact (hvalue value rfl).toRef hext fun c hc => (hwritten c (by
                  simp only [handleWrites, TrieNodeWithSize.writes, Option.map_some, Option.getD_some]
                  exact List.mem_append_left _ (List.mem_append_right _ hc))).1
          · intro i hi
            apply hnone i
            cases hc : children i with
            | none => rfl
            | some child => simp [hc, childHash] at hi
          · intro i c hi
            cases hc : children i with
            | none => simp [hc, childHash] at hi
            | some child =>
                simp only [hc, childHash, Option.map_some, Option.some.injEq] at hi
                subst hi
                exact ih i child hc fun c hc' => hwritten c (mem_writes_of_child hc hc')
          · rw [← hmu]
            cases value with
            | none => rfl
            | some v =>
                simp only [TrieNode.memoryUsageDirect, Option.map_some, Option.getD_some,
                  ValueHandle.memoryUsageValue_toRef hash (hvalue v rfl)]
  | @extension handle key child memoryUsage childUsage hload hkey hchild hmu ih =>
      cases handle with
      | hash h => exact (WellFormed.extension hload hkey hchild hmu).mono hext
      | inMemory n =>
          rw [NodeHandle.load_inMemory, Option.some.injEq] at hload
          subst hload
          have hw := hwritten (.node ⟨.extension key (handleHash hash child), memoryUsage⟩)
            (by simp [handleWrites, TrieNodeWithSize.writes])
          rw [Stored.bytes_node] at hw
          rw [handleHash_inMemory rfl]
          refine .extension (NodeHandle.load_hash_of_stored hw.2 hw.1) hkey (ih fun c hc => ?_) hmu
          exact hwritten c (by
            simp only [handleWrites, TrieNodeWithSize.writes]
            exact List.mem_append_left _ hc)

/-- After a successful `Trie::update` of a well formed trie, with values that fit a
`ValueRef` and writes that no hash confuses, the root left in memory is well formed, and so
is the new root read from the storage with the insertions, with the same memory usage. -/
theorem update_wellFormed {root : CryptoHash} {rootUsage : ℕ}
    {changes : List (List UInt8 × Option (List UInt8))} {fuel : ℕ} {trieChanges : TrieChanges}
    (hroot : WellFormed storage (.hash root) rootUsage) (hvalues : ValuesFit changes)
    (hfree : CollisionFree hash storage (updateWrites hash storage root changes fuel))
    (hupdate : update hash storage root changes fuel = .ok trieChanges) :
    ∃ node memory, applyChanges storage root changes fuel = .ok (node, memory) ∧
      WellFormed storage (.inMemory node) node.memoryUsage ∧
      WellFormed (storage.applyInsertions trieChanges.insertions) (.hash trieChanges.newRoot)
        node.memoryUsage := by
  obtain ⟨node, memory, happly, hnewRoot, hwritten⟩ := update_stores_writes hfree hupdate
  have hs := applyChanges_wellFormed hroot hvalues happly
  refine ⟨node, memory, happly, hs, ?_⟩
  rw [hnewRoot]
  exact hs.flatten (fun _ _ h => TrieStorage.applyInsertions_mono _ _ h) hwritten

end Update

end Nearcore.Trie
