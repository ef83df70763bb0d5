import Nearcore.TrieFlatten

/-!
# `Trie::update` keeps the map

After `Trie::update` the new root, read from a storage that holds the
insertions, stands for the map of the old root with each change applied, the
last change to a key winning (`lookup_of_update_ok`).

Two facts about the reference count changes carry the storage part.  Before
`flatten_nodes` every change is a decrement of a node or value read from the
storage, so every recorded entry holds what the storage holds under its hash
(`NodesStorage.Recorded`).  `flatten_nodes` then counts every written node
once more; a written node either is already stored or ends with a positive
count, and so is among the insertions.  Both need the hash to tell apart the
nodes written and the nodes stored (`CollisionFree`), which is all this
development assumes of SHA-256.
-/

namespace Nearcore.Trie

/-! ## One change of a reference count -/

theorem NodesStorage.get?_addToEntry (memory : NodesStorage) (k k' : CryptoHash) (c : Stored)
    (delta : ℤ) :
    (memory.addToEntry k c delta).refcountChanges.get? k' =
      if k = k' then
        some (match memory.refcountChanges.get? k with
          | some (c', rc) => (c', rc + delta)
          | none => (c, delta))
      else memory.refcountChanges.get? k' := by
  unfold NodesStorage.addToEntry
  rcases memory.refcountChanges.get? k with _ | ⟨c', rc⟩
  · rw [BTreeMap.get?_insert]
    by_cases h : k = k' <;> simp [h]
  · rw [BTreeMap.get?_insert]
    by_cases h : k = k' <;> simp [h]

theorem NodesStorage.isSome_get?_addToEntry {memory : NodesStorage} {k k' : CryptoHash} (c : Stored)
    (delta : ℤ) (h : (memory.refcountChanges.get? k').isSome) :
    ((memory.addToEntry k c delta).refcountChanges.get? k').isSome := by
  rw [NodesStorage.get?_addToEntry]
  split <;> simp_all

theorem storage_of_retrieveRawNode {storage : TrieStorage} {k : CryptoHash}
    {raw : RawTrieNodeWithSize} (h : retrieveRawNode storage k = .ok (some raw)) :
    storage k = some (.node raw) := by
  unfold retrieveRawNode at h
  by_cases hk : k = EMPTY_ROOT
  · simp [hk] at h
  · rw [if_neg hk] at h
    split at h <;> simp_all

/-! ## What the walks do to the reference counts

Before `flatten_nodes`, `update` changes reference counts only by reading
nodes and deleting values, each a decrement of something stored.  Any
property of the changes that such a decrement keeps holds all along. -/

/-- A property of the reference count changes that every decrement of a
stored node or value keeps. -/
def KeptByDecrements (storage : TrieStorage) (P : NodesStorage → Prop) : Prop :=
  ∀ memory k c, storage k = some c → P memory → P (memory.addToEntry k c (-1))

namespace KeptByDecrements

variable {storage : TrieStorage} {P : NodesStorage → Prop} (hP : KeptByDecrements storage P)
  {memory memory' : NodesStorage} {node : TrieNodeWithSize}
include hP

theorem moveNodeToMutable {k : CryptoHash}
    (h : (Trie.moveNodeToMutable storage k).run memory = .ok (node, memory')) (hm : P memory) :
    P memory' := by
  unfold Trie.moveNodeToMutable at h
  split at h
  · cases h
  · simp only [run_pure, Except.ok.injEq, Prod.mk.injEq] at h
    rw [← h.2]
    exact hm
  · next raw hretrieve =>
      rw [run_bind_eq_ok] at h
      obtain ⟨u, memory₁, hadd, hpure⟩ := h
      simp only [run_pure, Except.ok.injEq, Prod.mk.injEq] at hpure
      rw [← hpure.2, run_addRefcount_eq_ok hadd]
      exact hP _ _ _ (storage_of_retrieveRawNode hretrieve) hm

theorem toMutable {handle : NodeHandle}
    (h : (handle.toMutable storage).run memory = .ok (node, memory')) (hm : P memory) : P memory' := by
  cases handle with
  | hash k => exact hP.moveNodeToMutable h hm
  | inMemory n =>
      simp only [NodeHandle.toMutable, run_pure, Except.ok.injEq, Prod.mk.injEq] at h
      rw [← h.2]
      exact hm

theorem childToMutable {child : Option NodeHandle}
    (h : (Trie.childToMutable storage child).run memory = .ok (node, memory')) (hm : P memory) :
    P memory' := by
  cases child with
  | some handle => exact hP.toMutable h hm
  | none =>
      simp only [Trie.childToMutable, run_pure, Except.ok.injEq, Prod.mk.injEq] at h
      rw [← h.2]
      exact hm

theorem deleteValue {value : ValueHandle}
    (h : (Trie.deleteValue storage value).run memory = .ok ((), memory')) (hm : P memory) :
    P memory' := by
  cases value with
  | inMemory v =>
      simp only [Trie.deleteValue, run_pure, Except.ok.injEq, Prod.mk.injEq] at h
      rw [← h.2]
      exact hm
  | hashAndSize v =>
      simp only [Trie.deleteValue] at h
      split at h
      · cases h
      · next c hs =>
          rw [run_addRefcount_eq_ok h]
          exact hP _ _ _ hs hm

theorem forM_deleteValue {value : Option ValueHandle}
    (h : (value.forM (Trie.deleteValue storage)).run memory = .ok ((), memory')) (hm : P memory) :
    P memory' := by
  cases value with
  | none =>
      cases h
      exact hm
  | some v => exact hP.deleteValue h hm

theorem insertStep {value : List UInt8} {partialKey : NibbleSlice} {r : InsertStep}
    (hstep : InsertStepCase storage value partialKey memory node r memory') (hm : P memory) :
    P memory' := by
  cases hstep with
  | branchValue _ _ _ _ _ _ hdelete => exact hP.forM_deleteValue hdelete hm
  | branchChild _ _ _ _ _ _ _ hload => exact hP.childToMutable hload hm
  | leafEqual _ _ _ _ _ _ _ _ _ hdelete => exact hP.deleteValue hdelete hm
  | extensionChild _ _ _ _ _ _ _ _ _ _ _ hload => exact hP.toMutable hload hm
  | empty | leafBranch | leafExtension | leafSplit | extensionBranch | extensionSplit => exact hm

theorem insertRun {value : List UInt8} {path path' : List Crumb} {partialKey : NibbleSlice}
    {node' : TrieNodeWithSize}
    (hrun : InsertRun storage value path node partialKey memory path' node' memory') (hm : P memory) :
    P memory' := by
  induction hrun with
  | done hstep => exact hP.insertStep hstep hm
  | descend hstep _ ih => exact ih (hP.insertStep hstep hm)
  | again hstep _ ih => exact ih (hP.insertStep hstep hm)

theorem insert {partialKey : NibbleSlice} {value : List UInt8} {node' : TrieNodeWithSize}
    (h : (Trie.insert storage node partialKey value).run memory = .ok (node', memory'))
    (hm : P memory) : P memory' := by
  obtain ⟨path, node₁, hrun, -⟩ := insert_run h
  exact hP.insertRun hrun hm

theorem deleteStep {partialKey : NibbleSlice} {r : DeleteStep}
    (hstep : DeleteStepCase storage partialKey memory node r memory') (hm : P memory) :
    P memory' := by
  cases hstep with
  | leafDelete _ _ _ _ _ _ _ _ _ hdelete => exact hP.deleteValue hdelete hm
  | branchEmpty _ _ _ _ _ _ hdelete => exact hP.forM_deleteValue hdelete hm
  | branchValue _ _ _ _ _ _ hdelete => exact hP.forM_deleteValue hdelete hm
  | branchChild _ _ _ _ _ _ _ _ _ hload => exact hP.toMutable hload hm
  | extensionChild _ _ _ _ _ _ _ _ _ _ hload => exact hP.toMutable hload hm
  | empty | leafKeep | branchNone | extensionKeep => exact hm

theorem deleteRun {path path' : List Crumb} {partialKey : NibbleSlice} {node' : TrieNodeWithSize}
    (hrun : DeleteRun storage path node partialKey memory path' node' memory') (hm : P memory) :
    P memory' := by
  induction hrun with
  | done hstep => exact hP.deleteStep hstep hm
  | descend hstep _ ih => exact ih (hP.deleteStep hstep hm)

theorem fixExtension {key : List UInt8} {child : NodeHandle} {node' : TrieNodeWithSize}
    (hfix : FixExtensionCase storage key memory child node' memory') (hm : P memory) : P memory' := by
  cases hfix with
  | empty _ _ hload => exact hP.toMutable hload hm
  | leaf _ _ _ _ _ _ _ _ _ hload => exact hP.toMutable hload hm
  | branch _ _ _ _ hload => exact hP.toMutable hload hm
  | extension _ _ _ _ _ _ _ _ _ hload => exact hP.toMutable hload hm

theorem fixNode {childMemoryUsage : ℕ} {node' : TrieNodeWithSize}
    (hfix : FixNodeCase storage childMemoryUsage memory node node' memory') (hm : P memory) :
    P memory' := by
  cases hfix with
  | branchExtension _ _ _ _ _ _ _ _ _ hfix => exact hP.fixExtension hfix hm
  | extension _ _ _ _ _ hfix => exact hP.fixExtension hfix hm
  | empty | leaf | branchLeaf | branchEmpty | branch => exact hm

theorem fixNodes {path : List Crumb} {node' : TrieNodeWithSize}
    (h : (Trie.fixNodes storage path node).run memory = .ok (node', memory')) (hm : P memory) :
    P memory' := by
  unfold Trie.fixNodes at h
  rw [run_bind_eq_ok] at h
  obtain ⟨node₁, memory₁, hfix, h⟩ := h
  have hm₁ := hP.fixNode (fixNode_cases hfix) hm
  clear hfix hm
  induction path generalizing node₁ memory₁ with
  | nil =>
      simp only [List.foldlM_nil, run_pure, Except.ok.injEq, Prod.mk.injEq] at h
      rw [← h.2]
      exact hm₁
  | cons crumb path ih =>
      rw [List.foldlM_cons, run_bind_eq_ok] at h
      obtain ⟨node₂, memory₂, hfix, h⟩ := h
      exact ih node₂ memory₂ h (hP.fixNode (fixNode_cases hfix) hm₁)

theorem delete {partialKey : NibbleSlice} {fuel : ℕ} {node' : TrieNodeWithSize}
    (h : (Trie.delete storage node partialKey fuel).run memory = .ok (node', memory'))
    (hm : P memory) : P memory' := by
  obtain ⟨path, node₁, memory₁, hrun, hfix⟩ := delete_run h
  exact hP.fixNodes hfix (hP.deleteRun hrun hm)

theorem foldlM_applyChange {fuel : ℕ} (changes : List (List UInt8 × Option (List UInt8)))
    {node' : TrieNodeWithSize}
    (h : (changes.foldlM (applyChange storage fuel) node).run memory = .ok (node', memory'))
    (hm : P memory) : P memory' := by
  induction changes generalizing node memory with
  | nil =>
      simp only [List.foldlM_nil, run_pure, Except.ok.injEq, Prod.mk.injEq] at h
      rw [← h.2]
      exact hm
  | cons change changes ih =>
      rw [List.foldlM_cons, run_bind_eq_ok] at h
      obtain ⟨node₁, memory₁, hchange, h⟩ := h
      obtain ⟨key, value⟩ := change
      cases value with
      | some value => exact ih h (hP.insert hchange hm)
      | none => exact ih h (hP.delete hchange hm)

theorem applyChanges {root : CryptoHash} {changes : List (List UInt8 × Option (List UInt8))}
    {fuel : ℕ} (h : Trie.applyChanges storage root changes fuel = .ok (node, memory))
    (hnew : P NodesStorage.new) : P memory := by
  unfold Trie.applyChanges at h
  cases hroot : (Trie.moveNodeToMutable storage root).run NodesStorage.new with
  | error e =>
      rw [hroot] at h
      cases h
  | ok r =>
      obtain ⟨rootNode, memory₁⟩ := r
      rw [hroot] at h
      exact hP.foldlM_applyChange changes h (hP.moveNodeToMutable hroot hnew)

end KeptByDecrements

/-! ## Before `flatten_nodes`: only stored contents recorded -/

/-- Every recorded entry holds what the storage holds under its hash. -/
def NodesStorage.Recorded (storage : TrieStorage) (memory : NodesStorage) : Prop :=
  ∀ k c rc, memory.refcountChanges.get? k = some (c, rc) → storage k = some c

theorem keptByDecrements_recorded (storage : TrieStorage) :
    KeptByDecrements storage (NodesStorage.Recorded storage) := by
  intro memory k c hs hm k' c' rc' h
  rw [NodesStorage.get?_addToEntry] at h
  by_cases hk : k = k'
  · subst hk
    rw [if_pos rfl, Option.some.injEq] at h
    split at h
    · next c'' rc'' hget =>
        simp only [Prod.mk.injEq] at h
        rw [← h.1]
        exact hm k c'' rc'' hget
    · simp only [Prod.mk.injEq] at h
      rw [← h.1]
      exact hs
  · rw [if_neg hk] at h
    exact hm k' c' rc' h

theorem NodesStorage.recorded_new (storage : TrieStorage) : NodesStorage.new.Recorded storage := by
  intro k c rc h
  simp [NodesStorage.new, BTreeMap.get?, BTreeMap.empty] at h

/-! ## After `flatten_nodes`: the written nodes are stored or inserted -/

/-- `hash` tells apart the contents `written`, tells each of them apart from
what the storage already holds under its hash, and sends none of them to
`EMPTY_ROOT`. -/
structure CollisionFree (hash : List UInt8 → CryptoHash) (storage : TrieStorage)
    (written : List Stored) : Prop where
  injective : ∀ c ∈ written, ∀ c' ∈ written, hash c.bytes = hash c'.bytes → c = c'
  stored : ∀ c ∈ written, ∀ c', storage (hash c.bytes) = some c' → c' = c
  ne_emptyRoot : ∀ c ∈ written, hash c.bytes ≠ EMPTY_ROOT

section Written

variable {hash : List UInt8 → CryptoHash} {storage : TrieStorage} {written : List Stored}
  {memory : NodesStorage}

/-- An entry holds a stored content, or a written one counted at least once. -/
def NodesStorage.StoredOrWritten (hash : List UInt8 → CryptoHash) (storage : TrieStorage)
    (written : List Stored) (memory : NodesStorage) : Prop :=
  ∀ k c rc, memory.refcountChanges.get? k = some (c, rc) →
    storage k = some c ∨ (c ∈ written ∧ hash c.bytes = k ∧ 0 < rc)

theorem NodesStorage.StoredOrWritten.addWrites (hm : memory.StoredOrWritten hash storage written)
    (w : List Stored) (hw : w ⊆ written) :
    (memory.addWrites hash w).StoredOrWritten hash storage written := by
  induction w generalizing memory with
  | nil => exact hm
  | cons c w ih =>
      refine ih ?_ (List.subset_of_cons_subset hw)
      intro k c' rc' h
      rw [NodesStorage.get?_addToEntry] at h
      by_cases hk : hash c.bytes = k
      · rw [if_pos hk, Option.some.injEq] at h
        split at h
        · next c'' rc'' hget =>
            simp only [Prod.mk.injEq] at h
            obtain ⟨rfl, rfl⟩ := h
            rcases hm _ _ _ hget with hs | ⟨hmem, hhash, hrc⟩
            · exact .inl (hk ▸ hs)
            · exact .inr ⟨hmem, hhash.trans hk, by omega⟩
        · simp only [Prod.mk.injEq] at h
          obtain ⟨rfl, rfl⟩ := h
          exact .inr ⟨hw List.mem_cons_self, hk, by decide⟩
      · rw [if_neg hk] at h
        exact hm k c' rc' h

theorem NodesStorage.isSome_get?_addWrites (memory : NodesStorage) (w : List Stored) {c : Stored}
    (hc : c ∈ w) : ((memory.addWrites hash w).refcountChanges.get? (hash c.bytes)).isSome := by
  have hkeep : ∀ (w : List Stored) (memory : NodesStorage) (k : CryptoHash),
      (memory.refcountChanges.get? k).isSome →
        ((memory.addWrites hash w).refcountChanges.get? k).isSome := by
    intro w
    induction w with
    | nil => exact fun _ _ h => h
    | cons c w ih => exact fun memory k h => ih _ k (NodesStorage.isSome_get?_addToEntry c 1 h)
  induction w generalizing memory with
  | nil => simp at hc
  | cons c' w ih =>
      rcases List.mem_cons.mp hc with rfl | hc
      · refine hkeep w _ _ ?_
        rw [NodesStorage.get?_addToEntry, if_pos rfl]
        rfl
      · exact ih _ hc

/-- The insertions of `convert_to_insertions_and_deletions`, when it returns. -/
def insertionsOf (changes : BTreeMap CryptoHash (Stored × ℤ)) : List TrieRefcountChange :=
  changes.entries.filterMap fun (h, stored, rc) => if 0 < rc then some ⟨h, stored, rc.toNat⟩ else none

theorem convertToInsertionsAndDeletions_fst {changes : BTreeMap CryptoHash (Stored × ℤ)}
    {p : List TrieRefcountChange × List TrieRefcountChange}
    (h : convertToInsertionsAndDeletions changes = .ok p) : p.1 = insertionsOf changes := by
  unfold convertToInsertionsAndDeletions at h
  split at h
  · cases h
  · cases h
    rfl

theorem convertToInsertionsAndDeletions_of_weight {memory : NodesStorage} (h : memory.weight < 2 ^ 31) :
    ∃ p, convertToInsertionsAndDeletions memory.refcountChanges = .ok p := by
  unfold convertToInsertionsAndDeletions
  rw [if_neg]
  · exact ⟨_, rfl⟩
  · simp only [List.any_eq_true, decide_eq_true_eq, not_exists, not_and]
    rintro ⟨k, c, rc⟩ hmem - hrc
    dsimp only at hrc
    have hle : rc.natAbs ≤ memory.weight :=
      BTreeMap.le_sumBy_of_get?_eq_some (fun _ entry => entry.2.natAbs)
        ((BTreeMap.get?_eq_some_iff _ _ _).mpr hmem)
    exact hrc (I32.inRange_of_natAbs_lt (by rw [Int.natAbs_neg]; omega))

theorem mem_insertions_iff {changes : BTreeMap CryptoHash (Stored × ℤ)} {change : TrieRefcountChange} :
    change ∈ insertionsOf changes ↔
      ∃ rc, 0 < rc ∧ changes.get? change.trieNodeOrValueHash = some (change.trieNodeOrValue, rc) ∧
        change.rc = rc.toNat := by
  simp only [insertionsOf, List.mem_filterMap]
  constructor
  · rintro ⟨⟨k, c, rc⟩, hmem, hchange⟩
    by_cases hpos : 0 < rc
    · simp only [hpos, if_true, Option.some.injEq] at hchange
      subst hchange
      exact ⟨rc, hpos, (BTreeMap.get?_eq_some_iff _ _ _).mpr hmem, rfl⟩
    · simp [hpos] at hchange
  · rintro ⟨rc, hpos, hget, hrc⟩
    refine ⟨(change.trieNodeOrValueHash, change.trieNodeOrValue, rc),
      (BTreeMap.get?_eq_some_iff _ _ _).mp hget, ?_⟩
    obtain ⟨k, c, n⟩ := change
    simp only at hrc
    simp [hpos, hrc]

theorem find?_insertions {changes : BTreeMap CryptoHash (Stored × ℤ)} {k : CryptoHash} {c : Stored}
    {rc : ℤ} (h : changes.get? k = some (c, rc)) (hrc : 0 < rc) :
    ((insertionsOf changes).find? fun change =>
      change.trieNodeOrValueHash == k).map TrieRefcountChange.trieNodeOrValue = some c := by
  cases hfind : (insertionsOf changes).find? fun change =>
      change.trieNodeOrValueHash == k with
  | none =>
      have hmem : (⟨k, c, rc.toNat⟩ : TrieRefcountChange) ∈ insertionsOf changes :=
        mem_insertions_iff.mpr ⟨rc, hrc, h, rfl⟩
      simpa using List.find?_eq_none.mp hfind _ hmem
  | some x =>
      have hx : x.trieNodeOrValueHash = k := by simpa using List.find?_some hfind
      obtain ⟨rc', -, hget, -⟩ := mem_insertions_iff.mp (List.mem_of_find?_eq_some hfind)
      rw [hx, h, Option.some.injEq, Prod.mk.injEq] at hget
      rw [Option.map_some, hget.1]

theorem TrieStorage.applyInsertions_mono (storage : TrieStorage) (insertions : List TrieRefcountChange)
    {k : CryptoHash} {c : Stored} (h : storage k = some c) : storage.applyInsertions insertions k = some c := by
  simp [TrieStorage.applyInsertions, h]

/-- Once the insertions are stored, the storage holds every written node and
value under its hash. -/
theorem applyInsertions_written (hfree : CollisionFree hash storage written)
    (hrec : memory.Recorded storage) {c : Stored} (hc : c ∈ written) :
    storage.applyInsertions
        (insertionsOf (memory.addWrites hash written).refcountChanges)
        (hash c.bytes) = some c := by
  have hsw : (memory.addWrites hash written).StoredOrWritten hash storage written :=
    NodesStorage.StoredOrWritten.addWrites (fun k c rc h => .inl (hrec k c rc h)) written
      (List.Subset.refl _)
  obtain ⟨⟨c', rc⟩, hget⟩ := Option.isSome_iff_exists.mp (memory.isSome_get?_addWrites written hc)
  rcases hsw _ _ _ hget with hs | ⟨hc', hhash, hrc⟩
  · rw [hfree.stored c hc c' hs] at hs
    exact TrieStorage.applyInsertions_mono _ _ hs
  · -- a written content with a positive count: inserted, unless already stored
    have hcc : c' = c := hfree.injective c' hc' c hc hhash
    subst hcc
    cases hs : storage (hash c'.bytes) with
    | some c'' =>
        rw [hfree.stored c' hc c'' hs] at hs
        exact TrieStorage.applyInsertions_mono _ _ hs
    | none =>
        simp only [TrieStorage.applyInsertions, hs, Option.none_or]
        exact find?_insertions hget hrc

/-- Writes that the hash tells apart, none of them stored before and none named by the empty
root, are free of collisions. -/
theorem CollisionFree.of_fresh
    (h : (written.map fun c => hash c.bytes).Nodup ∧
      ∀ c ∈ written, (storage (hash c.bytes)).isNone ∧ hash c.bytes ≠ EMPTY_ROOT) :
    CollisionFree hash storage written := by
  obtain ⟨hnodup, hfresh⟩ := h
  refine ⟨fun c hc c' hc' h => List.inj_on_of_nodup_map hnodup hc hc' h, ?_, fun c hc => (hfresh c hc).2⟩
  intro c hc c' hstored
  have hnone := (hfresh c hc).1
  rw [hstored] at hnone
  cases hnone

/-- Two writes into the empty storage are told apart when their hashes differ
from each other and from the empty root. -/
theorem collisionFree_pair {c c' : Stored} (hne : hash c.bytes ≠ hash c'.bytes)
    (hc : hash c.bytes ≠ EMPTY_ROOT) (hc' : hash c'.bytes ≠ EMPTY_ROOT) :
    CollisionFree hash (fun _ => none) [c, c'] := by
  refine ⟨?_, fun _ _ _ hs => (by cases hs), ?_⟩
  · intro x hx y hy hxy
    simp only [List.mem_cons, List.not_mem_nil, or_false] at hx hy
    rcases hx with rfl | rfl <;> rcases hy with rfl | rfl
    · rfl
    · exact absurd hxy hne
    · exact absurd hxy.symm hne
    · rfl
  · intro x hx
    simp only [List.mem_cons, List.not_mem_nil, or_false] at hx
    rcases hx with rfl | rfl
    · exact hc
    · exact hc'

end Written

/-! ## The map after the changes -/

/-- The map of `changes` applied in order to `M`, each `Some` setting the
reference of its value and each `None` removing its key. -/
def changesMap (hash : List UInt8 → CryptoHash) (M : List Nibble → Option ValueRef)
    (changes : List (List UInt8 × Option (List UInt8))) : List Nibble → Option ValueRef :=
  changes.foldl (fun m change => Function.update m (bytesToNibbles change.1)
    (change.2.map fun value => (ValueHandle.inMemory value).toRef hash)) M

theorem changesMap_bytesToNibbles (hash : List UInt8 → CryptoHash) (M : List Nibble → Option ValueRef)
    (changes : List (List UInt8 × Option (List UInt8))) (key : List UInt8) :
    changesMap hash M changes (bytesToNibbles key) =
      match changes.reverse.find? (·.1 == key) with
      | some (_, value) => value.map fun value => (ValueHandle.inMemory value).toRef hash
      | none => M (bytesToNibbles key) := by
  induction changes using List.reverseRecOn with
  | nil => rfl
  | append_singleton changes change ih =>
      obtain ⟨key', value⟩ := change
      simp only [changesMap, List.foldl_append, List.foldl_cons, List.foldl_nil,
        List.reverse_append, List.reverse_cons, List.reverse_nil, List.nil_append,
        List.singleton_append, List.find?_cons] at ih ⊢
      by_cases hkey : key' = key
      · subst hkey
        simp
      · have hne : bytesToNibbles key ≠ bytesToNibbles key' :=
          fun h => hkey (bytesToNibbles_injective h).symm
        simp only [beq_false_of_ne hkey, Function.update_of_ne hne]
        exact ih

section Changes

variable {hash : List UInt8 → CryptoHash} {storage : TrieStorage}

/-- The loop over the changes, one `insert` or `delete` at a time, applies
each change to the map. -/
theorem foldlM_applyChange_denotes {fuel : ℕ} (changes : List (List UInt8 × Option (List UInt8)))
    {node node' : TrieNodeWithSize} {memory memory' : NodesStorage} {m : List Nibble → Option ValueRef}
    (h : (changes.foldlM (applyChange storage fuel) node).run memory = .ok (node', memory'))
    (hd : Denotes storage hash (.inMemory node) m) :
    Denotes storage hash (.inMemory node') (changesMap hash m changes) := by
  induction changes generalizing node memory m with
  | nil =>
      simp only [List.foldlM_nil, run_pure, Except.ok.injEq, Prod.mk.injEq] at h
      rw [← h.1]
      exact hd
  | cons change changes ih =>
      rw [List.foldlM_cons, run_bind_eq_ok] at h
      obtain ⟨node₁, memory₁, hchange, h⟩ := h
      obtain ⟨key, value⟩ := change
      cases value with
      | some value =>
          have hd₁ := insert_denotes hchange hd
          rw [NibbleSlice.toList_new] at hd₁
          exact ih h hd₁
      | none =>
          have hd₁ := delete_denotes hchange hd
          rw [NibbleSlice.toList_new] at hd₁
          exact ih h hd₁

theorem applyChanges_denotes {root : CryptoHash} {M : List Nibble → Option ValueRef}
    {changes : List (List UInt8 × Option (List UInt8))} {fuel : ℕ} {node : TrieNodeWithSize}
    {memory : NodesStorage} (hroot : Denotes storage hash (.hash root) M)
    (h : applyChanges storage root changes fuel = .ok (node, memory)) :
    Denotes storage hash (.inMemory node) (changesMap hash M changes) := by
  unfold applyChanges at h
  cases hmove : (moveNodeToMutable storage root).run NodesStorage.new with
  | error e =>
      rw [hmove] at h
      cases h
  | ok r =>
      obtain ⟨rootNode, memory₁⟩ := r
      rw [hmove] at h
      have hload := load_of_run_moveNodeToMutable hmove
      exact foldlM_applyChange_denotes changes h (hroot.of_load hload (NodeHandle.load_inMemory _) rfl)

/-- The nodes and values that `flatten_nodes` writes at the end of an update. -/
def updateWrites (hash : List UInt8 → CryptoHash) (storage : TrieStorage) (root : CryptoHash)
    (changes : List (List UInt8 × Option (List UInt8))) (fuel : ℕ) : List Stored :=
  match applyChanges storage root changes fuel with
  | .ok (node, _) => node.writes hash
  | .error _ => []

/-- A successful update is the loop over the changes, then `flatten_nodes`
of the new root. -/
theorem update_eq_ok {root : CryptoHash} {changes : List (List UInt8 × Option (List UInt8))}
    {fuel : ℕ} {trieChanges : TrieChanges}
    (h : update hash storage root changes fuel = .ok trieChanges) :
    ∃ node memory, applyChanges storage root changes fuel = .ok (node, memory) ∧
      trieChanges.newRoot = handleHash hash (.inMemory node) ∧
      trieChanges.insertions = insertionsOf (memory.addWrites hash (node.writes hash)).refcountChanges := by
  unfold update at h
  obtain ⟨⟨node, memory⟩, happly, h⟩ := Except.bind_eq_ok.mp h
  obtain ⟨⟨newRoot, memory'⟩, hflatten, h⟩ := Except.bind_eq_ok.mp h
  obtain ⟨⟨insertions, deletions⟩, hconvert, h⟩ := Except.bind_eq_ok.mp h
  cases h
  rw [flattenNode_eq, run_map_eq_ok] at hflatten
  obtain ⟨_, hcount, hnewRoot⟩ := hflatten
  rw [run_countWrites_eq_ok hcount] at hconvert
  exact ⟨node, memory, happly, hnewRoot.symm, convertToInsertionsAndDeletions_fst hconvert⟩

/-- `Trie::update` returns once its loop has returned, `flatten_nodes` has
counted every write and no count is `i32::MIN`. -/
theorem update_of_countWrites {root : CryptoHash} {changes : List (List UInt8 × Option (List UInt8))}
    {fuel : ℕ} {node : TrieNodeWithSize} {memory memory' : NodesStorage}
    (happly : applyChanges storage root changes fuel = .ok (node, memory))
    (hcount : (countWrites hash (node.writes hash)).run memory = .ok ((), memory'))
    (hweight : memory'.weight < 2 ^ 31) :
    ∃ trieChanges, update hash storage root changes fuel = .ok trieChanges ∧
      trieChanges.newRoot = handleHash hash (.inMemory node) ∧
      trieChanges.insertions = insertionsOf memory'.refcountChanges := by
  obtain ⟨⟨insertions, deletions⟩, hconvert⟩ := convertToInsertionsAndDeletions_of_weight hweight
  have hflatten : (flattenNode hash node).run memory = .ok (handleHash hash (.inMemory node), memory') := by
    rw [flattenNode_eq, StateT.run_map, hcount]
    rfl
  refine ⟨⟨root, handleHash hash (.inMemory node), insertions, deletions⟩, ?_, rfl,
    convertToInsertionsAndDeletions_fst hconvert⟩
  unfold update
  refine Except.bind_eq_ok.mpr ⟨(node, memory), happly, ?_⟩
  refine Except.bind_eq_ok.mpr ⟨(handleHash hash (.inMemory node), memory'), hflatten, ?_⟩
  exact Except.bind_eq_ok.mpr ⟨(insertions, deletions), hconvert, rfl⟩

theorem applyChanges_emptyRoot_insert (key value : List UInt8) (fuel : ℕ) :
    applyChanges storage EMPTY_ROOT [(key, some value)] fuel =
      .ok (.mk (.leaf ((NibbleSlice.new key).encoded true) (.inMemory value))
        (TrieNode.leaf ((NibbleSlice.new key).encoded true) (.inMemory value)).memoryUsageDirect,
        NodesStorage.new) := by
  have hloop : insertLoop storage value [] TrieNodeWithSize.empty (NibbleSlice.new key)
      NodesStorage.new = .ok (([], .mk (.leaf ((NibbleSlice.new key).encoded true) (.inMemory value))
        (TrieNode.leaf ((NibbleSlice.new key).encoded true) (.inMemory value)).memoryUsageDirect),
        NodesStorage.new) := by
    rw [insertLoop]
    rfl
  have hmove : moveNodeToMutable storage EMPTY_ROOT NodesStorage.new =
      .ok (TrieNodeWithSize.empty, NodesStorage.new) := rfl
  unfold applyChanges
  simp only [hmove, List.foldlM_cons, List.foldlM_nil, applyChange, Trie.insert, StateT.run, hloop,
    bind, Except.bind, StateT.bind, pure, Except.pure]
  rfl

theorem updateWrites_emptyRoot_insert (key value : List UInt8) (fuel : ℕ) :
    updateWrites hash storage EMPTY_ROOT [(key, some value)] fuel =
      [.value value, .node ⟨.leaf ((NibbleSlice.new key).encoded true) ((ValueHandle.inMemory value).toRef hash),
        (TrieNode.leaf ((NibbleSlice.new key).encoded true) (.inMemory value)).memoryUsageDirect⟩] := by
  simp only [updateWrites, applyChanges_emptyRoot_insert, TrieNodeWithSize.writes, ValueHandle.writes]
  rfl

theorem update_emptyRoot_insert_ok (key value : List UInt8) (fuel : ℕ)
    (hkey : ((NibbleSlice.new key).encoded true).length < 2 ^ 32) :
    ∃ trieChanges, update hash storage EMPTY_ROOT [(key, some value)] fuel = .ok trieChanges := by
  have hkeys : ∀ c ∈ TrieNodeWithSize.writes hash (.mk (.leaf ((NibbleSlice.new key).encoded true)
      (.inMemory value)) (TrieNode.leaf ((NibbleSlice.new key).encoded true) (.inMemory value)).memoryUsageDirect),
        c.KeysFit := by
    intro c hc
    simp only [TrieNodeWithSize.writes, ValueHandle.writes, List.cons_append, List.nil_append,
      List.mem_cons, List.not_mem_nil, or_false] at hc
    rcases hc with rfl | rfl
    · trivial
    · exact hkey
  obtain ⟨trieChanges, hupdate, -, -⟩ :=
    update_of_countWrites (applyChanges_emptyRoot_insert key value fuel)
      (run_countWrites_of_lt hkeys (by simp [TrieNodeWithSize.writes, ValueHandle.writes]))
      (lt_of_le_of_lt (NodesStorage.weight_addWrites_le _ _)
        (by simp [TrieNodeWithSize.writes, ValueHandle.writes]))
  exact ⟨trieChanges, hupdate⟩

end Changes

/-! ## `Trie::update` -/

/-- After a successful update the storage with the insertions holds every node
and value `flatten_nodes` wrote, under its hash. -/
theorem update_stores_writes {hash : List UInt8 → CryptoHash} {storage : TrieStorage}
    {root : CryptoHash} {changes : List (List UInt8 × Option (List UInt8))} {fuel : ℕ}
    {trieChanges : TrieChanges}
    (hfree : CollisionFree hash storage (updateWrites hash storage root changes fuel))
    (hupdate : update hash storage root changes fuel = .ok trieChanges) :
    ∃ node memory, applyChanges storage root changes fuel = .ok (node, memory) ∧
      trieChanges.newRoot = handleHash hash (.inMemory node) ∧
      ∀ c ∈ handleWrites hash (.inMemory node),
        storage.applyInsertions trieChanges.insertions (hash c.bytes) = some c ∧
          hash c.bytes ≠ EMPTY_ROOT := by
  obtain ⟨node, memory, happly, hnewRoot, hinsertions⟩ := update_eq_ok hupdate
  have hwrites : updateWrites hash storage root changes fuel = node.writes hash := by
    simp only [updateWrites, happly]
  rw [hwrites] at hfree
  have hrec : memory.Recorded storage :=
    (keptByDecrements_recorded storage).applyChanges happly (NodesStorage.recorded_new storage)
  refine ⟨node, memory, happly, hnewRoot, fun c hc => ⟨?_, hfree.ne_emptyRoot c hc⟩⟩
  rw [hinsertions]
  exact applyInsertions_written hfree hrec hc

/-- Once the insertions of a successful `Trie::update` are stored, a lookup from the new
root finds the value of the last change to the key, or the old value where
no change names it. -/
theorem lookup_of_update_ok {hash : List UInt8 → CryptoHash} {storage : TrieStorage} {root : CryptoHash}
    {M : List Nibble → Option ValueRef} {changes : List (List UInt8 × Option (List UInt8))}
    {fuel : ℕ} {trieChanges : TrieChanges}
    (hroot : Denotes storage hash (.hash root) M)
    (hfree : CollisionFree hash storage (updateWrites hash storage root changes fuel))
    (hupdate : update hash storage root changes fuel = .ok trieChanges) (key : List UInt8) :
    ∃ lookupFuel, lookup (storage.applyInsertions trieChanges.insertions) lookupFuel
        trieChanges.newRoot (NibbleSlice.new key) =
      some (.ok (match changes.reverse.find? (·.1 == key) with
        | some (_, value) => value.map fun value => (ValueHandle.inMemory value).toRef hash
        | none => M (bytesToNibbles key))) := by
  obtain ⟨node, memory, happly, hnewRoot, hwritten⟩ := update_stores_writes hfree hupdate
  have hd : Denotes (storage.applyInsertions trieChanges.insertions) hash (.hash trieChanges.newRoot)
      (changesMap hash M changes) := by
    rw [hnewRoot]
    exact (applyChanges_denotes hroot happly).flatten
      (fun _ _ h => TrieStorage.applyInsertions_mono _ _ h) hwritten
  obtain ⟨lookupFuel, hlookup⟩ := lookup_of_denotes hd (NibbleSlice.new key)
  refine ⟨lookupFuel, ?_⟩
  rw [hlookup, NibbleSlice.toList_new, changesMap_bytesToNibbles]

end Nearcore.Trie
