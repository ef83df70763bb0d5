import Nearcore.BTreeMap
import Nearcore.NibbleSlice
import Nearcore.Primitives
import Nearcore.RustArith

/-!
# Trie nodes, their storage and `Trie::lookup`

The nodes of the state trie as `core/store/src/trie` keeps them: in memory
while `Trie::update` rewrites them (`TrieNode`, with children that are either
in memory or a hash of a stored node), and in storage as `RawTrieNodeWithSize`
under the hash of their Borsh encoding.

`NodesStorage` owns the in-memory nodes and values in two vectors and hands
out indices into them.  Every index is held by exactly one parent, so the
model keeps each in-memory node and value in place of its index, and the
nodes form a tree.  What remains of `NodesStorage` is the map of reference
count changes, the state of the `TrieM` monad below.

Storage is a map from hashes to what they name, a node (read back decoded)
or a value.  Every `u64` subtraction of a memory usage goes through
`subtract`, which panics below zero as the release build (with overflow
checks) does; memory usages are otherwise natural numbers.
-/

namespace Nearcore.Trie

structure ValueRef where
  length : UInt32
  hash : CryptoHash
  deriving DecidableEq, Repr

/-- `ValueHandle`; an in-memory value is held in place of its index. -/
inductive ValueHandle where
  | inMemory (value : List UInt8)
  | hashAndSize (value : ValueRef)
  deriving DecidableEq, Repr

/-- `Children<T>`: the children of a branch, by nibble. -/
abbrev Children (α : Type) := Nibble → Option α

mutual

inductive TrieNode where
  | empty
  | leaf (key : List UInt8) (value : ValueHandle)
  | branch (children : Nibble → Option NodeHandle) (value : Option ValueHandle)
  | extension (key : List UInt8) (child : NodeHandle)

/-- `NodeHandle`; an in-memory child is held in place of its index. -/
inductive NodeHandle where
  | inMemory (node : TrieNodeWithSize)
  | hash (hash : CryptoHash)

inductive TrieNodeWithSize where
  | mk (node : TrieNode) (memoryUsage : ℕ)

end

namespace TrieNodeWithSize

def node : TrieNodeWithSize → TrieNode
  | mk node _ => node

def memoryUsage : TrieNodeWithSize → ℕ
  | mk _ memoryUsage => memoryUsage

@[simp] theorem node_mk (n : TrieNode) (mu : ℕ) : (mk n mu).node = n := rfl

@[simp] theorem memoryUsage_mk (n : TrieNode) (mu : ℕ) : (mk n mu).memoryUsage = mu := rfl

theorem eta (t : TrieNodeWithSize) : mk t.node t.memoryUsage = t := by
  cases t
  rfl

def empty : TrieNodeWithSize := mk .empty 0

end TrieNodeWithSize

/-- Induction over the nodes held in memory: a property of every in-memory
node follows from the same property of its in-memory children.  Children
stored by hash are leaves of this induction. -/
theorem TrieNodeWithSize.inMemory_induction {motive : TrieNodeWithSize → Prop}
    (empty : ∀ memoryUsage, motive (.mk .empty memoryUsage))
    (leaf : ∀ key value memoryUsage, motive (.mk (.leaf key value) memoryUsage))
    (branch : ∀ children value memoryUsage,
      (∀ i n, children i = some (.inMemory n) → motive n) →
        motive (.mk (.branch children value) memoryUsage))
    (extension : ∀ key child memoryUsage, (∀ n, child = .inMemory n → motive n) →
      motive (.mk (.extension key child) memoryUsage))
    (t : TrieNodeWithSize) : motive t :=
  @TrieNodeWithSize.rec
    (fun node => ∀ memoryUsage, motive (.mk node memoryUsage))
    (fun handle => ∀ n, handle = .inMemory n → motive n)
    motive
    (fun child => ∀ n, child = some (.inMemory n) → motive n)
    empty leaf
    (fun children value ih memoryUsage => branch children value memoryUsage ih)
    (fun key child ih memoryUsage => extension key child memoryUsage ih)
    (fun node ih n h => by
      cases h
      exact ih)
    (fun _ n h => by cases h)
    (fun _ memoryUsage ih => ih memoryUsage)
    (fun n h => by cases h)
    (fun _ ih n h => ih n (Option.some.inj h))
    t

/-! ## Memory usage of one node -/

structure TrieCosts where
  byteOfKey : ℕ
  byteOfValue : ℕ
  nodeCost : ℕ

def TRIE_COSTS : TrieCosts := ⟨2, 1, 50⟩

def memoryUsageForValueLength (valueLength : ℕ) : ℕ :=
  valueLength * TRIE_COSTS.byteOfValue + TRIE_COSTS.nodeCost

/-- `memory_usage_value`: an in-memory value counts its length as `u64`, a
stored one the `u32` length of its `ValueRef`. -/
def ValueHandle.memoryUsageValue : ValueHandle → ℕ
  | .inMemory value => memoryUsageForValueLength value.length
  | .hashAndSize value => memoryUsageForValueLength value.length.toNat

/-- `memory_usage_direct`: the cost of the node itself, without its children. -/
def TrieNode.memoryUsageDirect : TrieNode → ℕ
  | .empty => 0
  | .leaf key value =>
      TRIE_COSTS.nodeCost + key.length * TRIE_COSTS.byteOfKey + value.memoryUsageValue
  | .branch _ value => TRIE_COSTS.nodeCost + (value.map ValueHandle.memoryUsageValue).getD 0
  | .extension key _ => TRIE_COSTS.nodeCost + key.length * TRIE_COSTS.byteOfKey

/-! ## Stored nodes -/

inductive RawTrieNode where
  | leaf (key : List UInt8) (value : ValueRef)
  | branchNoValue (children : Children CryptoHash)
  | branchWithValue (value : ValueRef) (children : Children CryptoHash)
  | extension (key : List UInt8) (child : CryptoHash)
  deriving DecidableEq

def RawTrieNode.branch (children : Children CryptoHash) : Option ValueRef → RawTrieNode
  | some value => .branchWithValue value children
  | none => .branchNoValue children

structure RawTrieNodeWithSize where
  node : RawTrieNode
  memoryUsage : ℕ
  deriving DecidableEq

/-- The little-endian bytes of the low `width` bytes of `n`. -/
def leBytes (width n : ℕ) : List UInt8 :=
  (List.range width).map fun i => (n / 256 ^ i).toUInt8

def borshBytes (bytes : List UInt8) : List UInt8 := leBytes 4 bytes.length ++ bytes

def ValueRef.toBorsh (v : ValueRef) : List UInt8 := leBytes 4 v.length.toNat ++ v.hash.toBorsh

/-- The Borsh encoding of `Children`: a `u16` bitmap of the present children,
then the present children in order. -/
def childrenToBorsh (children : Children CryptoHash) : List UInt8 :=
  leBytes 2 ((List.finRange 16).foldr (fun i acc => if (children i).isSome then acc + 2 ^ i.val
    else acc) 0) ++
    (List.finRange 16).flatMap fun i => ((children i).map CryptoHash.toBorsh).getD []

def RawTrieNode.toBorsh : RawTrieNode → List UInt8
  | .leaf key value => 0 :: borshBytes key ++ value.toBorsh
  | .branchNoValue children => 1 :: childrenToBorsh children
  | .branchWithValue value children => 2 :: value.toBorsh ++ childrenToBorsh children
  | .extension key child => 3 :: borshBytes key ++ child.toBorsh

def RawTrieNodeWithSize.toBorsh (n : RawTrieNodeWithSize) : List UInt8 :=
  n.node.toBorsh ++ leBytes 8 n.memoryUsage

/-- The keys of the node fit Borsh's `u32` length prefix (`try_to_vec` refuses a longer one). -/
def RawTrieNode.KeysFit : RawTrieNode → Prop
  | .leaf key _ => key.length < 2 ^ 32
  | .extension key _ => key.length < 2 ^ 32
  | .branchNoValue _ => True
  | .branchWithValue _ _ => True

instance : DecidablePred RawTrieNode.KeysFit := fun n =>
  match n with
  | .leaf key _ => inferInstanceAs (Decidable (key.length < 2 ^ 32))
  | .extension key _ => inferInstanceAs (Decidable (key.length < 2 ^ 32))
  | .branchNoValue _ => isTrue trivial
  | .branchWithValue _ _ => isTrue trivial

/-- `TrieNode::new`: a stored node in memory, its children and value by hash. -/
def TrieNode.new : RawTrieNode → TrieNode
  | .leaf key value => .leaf key (.hashAndSize value)
  | .branchNoValue children => .branch (fun i => (children i).map .hash) none
  | .branchWithValue value children =>
      .branch (fun i => (children i).map .hash) (some (.hashAndSize value))
  | .extension key child => .extension key (.hash child)

def TrieNodeWithSize.fromRaw (node : RawTrieNodeWithSize) : TrieNodeWithSize :=
  .mk (TrieNode.new node.node) node.memoryUsage

/-! ## Storage -/

/-- `Trie::EMPTY_ROOT`, the all-zero hash: the empty trie, never stored. -/
def EMPTY_ROOT : CryptoHash := CryptoHash.default

/-- What a hash names in storage: the bytes of a node, kept decoded, or of a value. -/
inductive Stored where
  | node (node : RawTrieNodeWithSize)
  | value (bytes : List UInt8)
  deriving DecidableEq

def Stored.bytes : Stored → List UInt8
  | .node n => n.toBorsh
  | .value bytes => bytes

/-- `TrieStorage::retrieve_raw_bytes`, by hash. -/
abbrev TrieStorage := CryptoHash → Option Stored

inductive StorageError where
  | trieNodeMissing
  | storageInconsistentState
  deriving DecidableEq, Repr

/-- How a call ends without a result: an error returned, a panic, or, for a
loop the model runs on fuel, the fuel spent while the source would go on. -/
inductive Failure where
  | storageError (e : StorageError)
  | panic
  | outOfFuel
  deriving DecidableEq, Repr

/-- What is left of `NodesStorage` once its nodes and values are held in place:
the reference count changes, with the bytes of every node or value counted.
The source keeps each count as an `i32`. -/
structure NodesStorage where
  refcountChanges : BTreeMap CryptoHash (Stored × ℤ)

def NodesStorage.new : NodesStorage := ⟨BTreeMap.empty⟩

/-- The count recorded for `hash`, zero if there is none. -/
def NodesStorage.refcount (memory : NodesStorage) (hash : CryptoHash) : ℤ :=
  ((memory.refcountChanges.get? hash).map Prod.snd).getD 0

/-- The entry of `hash`, created as `(bytes, 0)` if missing, with `delta` added
to its count. -/
def NodesStorage.addToEntry (memory : NodesStorage) (hash : CryptoHash) (stored : Stored)
    (delta : ℤ) : NodesStorage :=
  match memory.refcountChanges.get? hash with
  | some (stored', rc) => ⟨memory.refcountChanges.insert hash (stored', rc + delta)⟩
  | none => ⟨memory.refcountChanges.insert hash (stored, delta)⟩

/-- The sizes of all counts added up, which bounds each of them. -/
def NodesStorage.weight (memory : NodesStorage) : ℕ :=
  memory.refcountChanges.sumBy fun _ entry => entry.2.natAbs

abbrev TrieM := StateT NodesStorage (Except Failure)

/-- `refcount_changes.entry(hash).or_insert_with(|| (bytes, 0)).1 += delta` on
the `i32` count, which panics out of range. -/
def NodesStorage.addRefcount (hash : CryptoHash) (stored : Stored) (delta : ℤ) : TrieM Unit := do
  let memory ← get
  if I32.InRange (memory.refcount hash + delta) then set (memory.addToEntry hash stored delta)
  else throw .panic

/-- A `u64` subtraction, which panics below zero. -/
def subtract (a b : ℕ) : TrieM ℕ :=
  if b ≤ a then pure (a - b) else throw .panic

/-! ### Running `TrieM` -/

section Run

variable {α β : Type} {memory memory' memory'' : NodesStorage}

theorem run_bind_eq_ok {x : TrieM α} {f : α → TrieM β} {b : β} :
    (x >>= f).run memory = .ok (b, memory'') ↔
      ∃ a memory', x.run memory = .ok (a, memory') ∧ (f a).run memory' = .ok (b, memory'') := by
  rw [StateT.run_bind]
  cases hx : x.run memory with
  | error e => simp [bind, Except.bind]
  | ok p =>
      obtain ⟨a, m⟩ := p
      simp [bind, Except.bind]

theorem run_bind_of_run_eq_ok {x : TrieM α} {f : α → TrieM β} {a : α}
    (hx : x.run memory = .ok (a, memory')) : (x >>= f).run memory = (f a).run memory' := by
  rw [StateT.run_bind, hx]
  rfl

theorem run_map_eq_ok {x : TrieM α} {f : α → β} {b : β} :
    (f <$> x).run memory = .ok (b, memory') ↔ ∃ a, x.run memory = .ok (a, memory') ∧ f a = b := by
  rw [StateT.run_map]
  cases hx : x.run memory with
  | error e => simp [Functor.map, Except.map]
  | ok p =>
      obtain ⟨a, m⟩ := p
      simp only [Functor.map, Except.map, Except.ok.injEq, Prod.mk.injEq]
      constructor
      · intro h
        exact ⟨a, ⟨rfl, h.2⟩, h.1⟩
      · intro h
        obtain ⟨a', ⟨ha, hm⟩, hb⟩ := h
        subst ha
        exact ⟨hb, hm⟩

@[simp] theorem run_pure (a : α) (memory : NodesStorage) :
    (pure a : TrieM α).run memory = .ok (a, memory) := rfl

@[simp] theorem run_throw (e : Failure) (memory : NodesStorage) :
    (throw e : TrieM α).run memory = .error e := rfl

@[simp] theorem run_modify (f : NodesStorage → NodesStorage) (memory : NodesStorage) :
    (modify f : TrieM Unit).run memory = .ok ((), f memory) := rfl

theorem run_subtract_eq_ok {a b c : ℕ} :
    (subtract a b).run memory = .ok (c, memory') ↔ b ≤ a ∧ c = a - b ∧ memory' = memory := by
  unfold subtract
  by_cases h : b ≤ a
  · rw [if_pos h, run_pure]
    simp [h, eq_comm]
  · rw [if_neg h, run_throw]
    simp [h]

theorem run_addRefcount (hash : CryptoHash) (stored : Stored) (delta : ℤ) (memory : NodesStorage) :
    (NodesStorage.addRefcount hash stored delta).run memory =
      if I32.InRange (memory.refcount hash + delta) then .ok ((), memory.addToEntry hash stored delta)
      else .error .panic := by
  show (if I32.InRange (memory.refcount hash + delta) then set (memory.addToEntry hash stored delta)
    else (throw .panic : TrieM Unit)).run memory = _
  split <;> rfl

theorem run_addRefcount_eq_ok {hash : CryptoHash} {stored : Stored} {delta : ℤ} {u : Unit}
    (h : (NodesStorage.addRefcount hash stored delta).run memory = .ok (u, memory')) :
    memory' = memory.addToEntry hash stored delta := by
  rw [run_addRefcount] at h
  split at h
  · cases h
    rfl
  · cases h

end Run

section Weight

variable (memory : NodesStorage) (hash : CryptoHash) (stored : Stored) (delta : ℤ)

@[simp] theorem NodesStorage.weight_new : NodesStorage.new.weight = 0 := rfl

theorem NodesStorage.natAbs_refcount_le_weight : (memory.refcount hash).natAbs ≤ memory.weight := by
  unfold NodesStorage.refcount
  cases h : memory.refcountChanges.get? hash with
  | none => simp
  | some entry => exact BTreeMap.le_sumBy_of_get?_eq_some (fun _ entry => entry.2.natAbs) h

theorem NodesStorage.weight_addToEntry_le :
    (memory.addToEntry hash stored delta).weight ≤ memory.weight + delta.natAbs := by
  unfold NodesStorage.addToEntry NodesStorage.weight
  cases h : memory.refcountChanges.get? hash with
  | none =>
      rw [BTreeMap.sumBy_insert_of_get?_eq_none _ h]
  | some entry =>
      obtain ⟨stored', rc⟩ := entry
      dsimp only
      have hsum := BTreeMap.sumBy_insert_of_get?_eq_some (fun _ entry => entry.2.natAbs) h
        (stored', rc + delta)
      have htri := Int.natAbs_add_le rc delta
      omega

theorem run_addRefcount_of_lt (h : memory.weight + delta.natAbs < 2 ^ 31) :
    (NodesStorage.addRefcount hash stored delta).run memory =
      .ok ((), memory.addToEntry hash stored delta) := by
  have hrc := memory.natAbs_refcount_le_weight hash
  have htri := Int.natAbs_add_le (memory.refcount hash) delta
  rw [run_addRefcount, if_pos (I32.inRange_of_natAbs_lt (by omega))]

end Weight

def retrieveRawNode (storage : TrieStorage) (hash : CryptoHash) :
    Except Failure (Option RawTrieNodeWithSize) :=
  if hash = EMPTY_ROOT then .ok none
  else
    match storage hash with
    | none => .error (.storageError .trieNodeMissing)
    | some (.node node) => .ok (some node)
    -- the bytes of a value do not decode as a node
    | some (.value _) => .error (.storageError .storageInconsistentState)

def moveNodeToMutable (storage : TrieStorage) (hash : CryptoHash) : TrieM TrieNodeWithSize := do
  match retrieveRawNode storage hash with
  | .error e => throw e
  | .ok none => pure .empty
  | .ok (some node) =>
      NodesStorage.addRefcount hash (.node node) (-1)
      pure (.fromRaw node)

def deleteValue (storage : TrieStorage) : ValueHandle → TrieM Unit
  | .hashAndSize value =>
      match storage value.hash with
      | none => throw (.storageError .trieNodeMissing)
      | some stored => NodesStorage.addRefcount value.hash stored (-1)
  | .inMemory _ => pure ()

/-- `Children::iter().count()`. -/
def childrenCount {α : Type} (children : Children α) : ℕ :=
  ((List.finRange 16).filter fun i => (children i).isSome).length

/-- The index of `Children::iter().next()`, the first present child. -/
def firstChild {α : Type} (children : Children α) : Option Nibble :=
  (List.finRange 16).find? fun i => (children i).isSome

theorem childrenCount_eq_zero_iff {α : Type} (children : Children α) :
    childrenCount children = 0 ↔ ∀ i, children i = none := by
  simp [childrenCount, List.filter_eq_nil_iff]

theorem isSome_of_firstChild_eq_some {α : Type} {children : Children α} {idx : Nibble}
    (h : firstChild children = some idx) : (children idx).isSome := by
  unfold firstChild at h
  have hsome := List.find?_some h
  exact hsome

theorem eq_none_of_childrenCount_eq_one {α : Type} {children : Children α} {idx i : Nibble}
    (hcount : childrenCount children = 1) (hidx : (children idx).isSome) (hi : i ≠ idx) :
    children i = none := by
  by_contra hne
  unfold childrenCount at hcount
  obtain ⟨a, ha⟩ := List.length_eq_one_iff.mp hcount
  have h₁ : idx ∈ (List.finRange 16).filter fun i => (children i).isSome :=
    List.mem_filter.mpr ⟨List.mem_finRange _, hidx⟩
  have h₂ : i ∈ (List.finRange 16).filter fun i => (children i).isSome :=
    List.mem_filter.mpr ⟨List.mem_finRange _, Option.isSome_iff_ne_none.mpr hne⟩
  rw [ha, List.mem_singleton] at h₁ h₂
  exact hi (h₂.trans h₁.symm)

/-- The node behind a child handle: in memory already, or loaded with
`move_node_to_mutable`. -/
def NodeHandle.toMutable (storage : TrieStorage) : NodeHandle → TrieM TrieNodeWithSize
  | .hash h => moveNodeToMutable storage h
  | .inMemory node => pure node

/-- The node in a child slot of a branch, where an empty slot holds a new
empty node. -/
def childToMutable (storage : TrieStorage) : Option NodeHandle → TrieM TrieNodeWithSize
  | some handle => handle.toMutable storage
  | none => pure .empty

/-! ## `Trie::lookup` -/

/-- `Trie::lookup` from the root `hash`, each turn of its loop paid by one unit
of `fuel`; `none` when the fuel runs out. -/
def lookup (storage : TrieStorage) : ℕ → CryptoHash → NibbleSlice →
    Option (Except Failure (Option ValueRef))
  | 0, _, _ => none
  | fuel + 1, hash, key =>
      match retrieveRawNode storage hash with
      | .error e => some (.error e)
      | .ok none => some (.ok none)
      | .ok (some node) =>
          match node.node with
          | .leaf existingKey value =>
              match NibbleSlice.fromEncoded existingKey with
              | none => some (.error .panic)
              | some (existingKey, _) => some (.ok (if existingKey == key then some value else none))
          | .extension existingKey child =>
              match NibbleSlice.fromEncoded existingKey with
              | none => some (.error .panic)
              | some (existingKey, _) =>
                  if key.startsWith existingKey then lookup storage fuel child (key.mid existingKey.len)
                  else some (.ok none)
          | .branchNoValue children =>
              if key.isEmpty then some (.ok none)
              else
                match children (key.at 0) with
                | some child => lookup storage fuel child (key.mid 1)
                | none => some (.ok none)
          | .branchWithValue value children =>
              if key.isEmpty then some (.ok (some value))
              else
                match children (key.at 0) with
                | some child => lookup storage fuel child (key.mid 1)
                | none => some (.ok none)

/-! ## The path of `insert` and `delete`

Both walk down from the root, storing every node they leave with the slot of
the child they descend into left open, and keep the handles of these nodes in
`path`.  A `Crumb` is one such node. -/

inductive Crumb where
  | branch (children : Children NodeHandle) (index : Nibble) (value : Option ValueHandle)
      (memoryUsage : ℕ)
  | extension (key : List UInt8) (memoryUsage : ℕ)

/-- The node of a crumb with `child` in its open slot. -/
def Crumb.plug : Crumb → TrieNodeWithSize → TrieNodeWithSize
  | .branch children index value memoryUsage, child =>
      .mk (.branch (Function.update children index (some (.inMemory child))) value) memoryUsage
  | .extension key memoryUsage, child => .mk (.extension key (.inMemory child)) memoryUsage

def Crumb.memoryUsage : Crumb → ℕ
  | .branch _ _ _ memoryUsage => memoryUsage
  | .extension _ memoryUsage => memoryUsage

/-- The crumb's node with `child` in its open slot and the child's memory
usage added: one step of the pass back up the path. -/
def Crumb.addChild (crumb : Crumb) (child : TrieNodeWithSize) : TrieNodeWithSize :=
  .mk (crumb.plug child).node (crumb.memoryUsage + child.memoryUsage)

@[simp] theorem Crumb.memoryUsage_plug (crumb : Crumb) (child : TrieNodeWithSize) :
    (crumb.plug child).memoryUsage = crumb.memoryUsage := by
  cases crumb <;> rfl

end Nearcore.Trie
