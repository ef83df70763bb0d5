import Nearcore.Primitives
import Nearcore.RustArith
import Nearcore.MerkleList

/-!
# Merkle roots and proofs of `near-primitives`

`merklize` hashes a slice of items, pairs neighbours level by level in place (an unpaired
last node moves up unchanged) and builds every leaf's proof at the same time, pushing the
hash of each new node onto the proofs of the leaves under its neighbour.
`compute_root_from_path` folds a proof back into a root.  `PartialMerkleTree` keeps only
the path of the next leaf, the roots of the perfect subtrees that the binary digits of its
size give, and `insert` carries a new leaf up through the trailing ones of the size.

The hash function (SHA-256) is a parameter; `combine_hash` hashes the Borsh encoding of
the pair, which is the two hashes one after the other.  Everything here holds for every
hash function: the results compare roots, and no collision freedom is needed.

Both constructions are shown to compute `MerkleList.root`, the tree that cuts a list at
`next_power_of_two(len) / 2`.  For `merklize`, the state after each level is described by
blocks of leaves (`LevelInvariant`) and a proof by the sibling blocks of a leaf
(`proofStep`); for `PartialMerkleTree`, the path is the peaks of the inserted hashes.
-/

namespace Nearcore.Merkle

open MerkleList

/-- `MerkleHash`, a `CryptoHash`. -/
abbrev MerkleHash := CryptoHash

/-- `Direction`: the side of the sibling in a proof step. -/
inductive Direction where
  | left
  | right
  deriving DecidableEq, Repr

structure MerklePathItem where
  hash : MerkleHash
  direction : Direction
  deriving DecidableEq, Repr

/-- `MerklePath`, the proof of a leaf from the bottom level up. -/
abbrev MerklePath := List MerklePathItem

variable (hash : List UInt8 → CryptoHash)

/-- `combine_hash`: the hash of the Borsh encoding of the pair. -/
def combineHash (hash1 hash2 : MerkleHash) : MerkleHash :=
  hash (hash1.toBorsh ++ hash2.toBorsh)

/-- `compute_root_from_path`: fold the proof into the item's hash from the bottom up. -/
def computeRootFromPath (path : MerklePath) (itemHash : MerkleHash) : MerkleHash :=
  path.foldl (fun res item =>
    match item.direction with
    | .left => combineHash hash item.hash res
    | .right => combineHash hash res item.hash) itemHash

/-- `verify_hash`. -/
def verifyHash (root : MerkleHash) (path : MerklePath) (itemHash : MerkleHash) : Bool :=
  computeRootFromPath hash path itemHash == root

section Items

variable {α : Type} (toBorsh : α → List UInt8)

/-- `CryptoHash::hash_borsh`. -/
def hashBorsh (item : α) : MerkleHash := hash (toBorsh item)

/-- `verify_path`. -/
def verifyPath (root : MerkleHash) (path : MerklePath) (item : α) : Bool :=
  verifyHash hash root path (hashBorsh hash toBorsh item)

/-- The proof of leaf `i` before the loop: its neighbour in the bottom pair, if it has one. -/
def initialPath (hashes : List MerkleHash) (arrLen i : ℕ) : MerklePath :=
  if i % 2 = 0 then
    if i + 1 < arrLen then [⟨hashes[i + 1]!, .right⟩] else []
  else [⟨hashes[i - 1]!, .left⟩]

/-- `for j in 0..counter`: push `item` onto the proofs of the leaves from `start` on that exist. -/
def pushToLeaves (arrLength start counter : ℕ) (item : MerklePathItem)
    (paths : List MerklePath) : List MerklePath :=
  (List.range counter).foldl (fun paths j =>
    let index := start + j
    if index < arrLength then paths.modify index (· ++ [item]) else paths) paths

/-- One round of `for i in 0..len`: node `i` of the next level from nodes `2 i` and `2 i + 1`,
written over `hashes[i]` and pushed onto the proofs of the leaves under its neighbour. -/
def mergeNode (arrLength len counter arrLen : ℕ) (state : List MerkleHash × List MerklePath)
    (i : ℕ) : List MerkleHash × List MerklePath :=
  let (hashes, paths) := state
  if 2 * i ≥ arrLen then (hashes, paths)
  else
    let nodeHash :=
      if 2 * i + 1 ≥ arrLen then hashes[2 * i]!
      else combineHash hash hashes[2 * i]! hashes[2 * i + 1]!
    let hashes := hashes.set i nodeHash
    if len > 1 then
      if i % 2 = 0 then
        (hashes, pushToLeaves arrLength ((i + 1) * counter) counter ⟨nodeHash, .left⟩ paths)
      else
        (hashes, pushToLeaves arrLength ((i - 1) * counter) counter ⟨nodeHash, .right⟩ paths)
    else (hashes, paths)

/-- The `while len > 1` loop of `merklize`, one level per turn. -/
def merklizeLoop (arrLength len counter arrLen : ℕ) (state : List MerkleHash × List MerklePath) :
    List MerkleHash × List MerklePath :=
  if len > 1 then
    let len := len / 2
    let counter := counter * 2
    let state := (List.range len).foldl (mergeNode hash arrLength len counter arrLen) state
    merklizeLoop arrLength len counter ((arrLen + 1) / 2) state
  else state
termination_by len
decreasing_by omega

/-- `merklize`: the root of the items and the proof of each. -/
def merklize (arr : List α) : MerkleHash × List MerklePath :=
  if arr.isEmpty then (CryptoHash.default, [])
  else
    let len := nextPowerOfTwo arr.length
    let hashes := arr.map (hashBorsh hash toBorsh)
    if len = 1 then (hashes[0]!, [[]])
    else
      let paths := (List.range arr.length).map (initialPath hashes arr.length)
      let state := merklizeLoop hash arr.length len 1 arr.length (hashes, paths)
      (state.1[0]!, state.2)

end Items

/-- `PartialMerkleTree`: the path for the next leaf and the number of leaves. -/
structure PartialMerkleTree where
  path : List MerkleHash
  size : UInt64
  deriving DecidableEq, Repr

namespace PartialMerkleTree

/-- `PartialMerkleTree::default()`. -/
def default : PartialMerkleTree := ⟨[], 0⟩

/-- `PartialMerkleTree::root`: the path folded from the right onto its last entry. -/
def root (self : PartialMerkleTree) : MerkleHash :=
  match self.path.getLast? with
  | none => CryptoHash.default
  | some last => self.path.dropLast.foldr (combineHash hash) last

/-- The `while s % 2 == 1` loop of `insert`: one popped path entry per trailing one. -/
def insertLoop (s : UInt64) (node : MerkleHash) (path : List MerkleHash) :
    Option (MerkleHash × List MerkleHash) :=
  if s % 2 = 1 then
    -- `self.path.pop().unwrap()` panics on an empty path
    match path.getLast? with
    | none => none
    | some lastPathElem => insertLoop (s / 2) (combineHash hash lastPathElem node) path.dropLast
  else some (node, path)
termination_by s.toNat
decreasing_by
  have hodd : (s % 2).toNat = 1 := by
    rw [‹s % 2 = 1›]
    rfl
  rw [UInt64.toNat_mod] at hodd
  rw [UInt64.toNat_div]
  simp only [UInt64.reduceToNat] at hodd ⊢
  omega

/-- `PartialMerkleTree::insert`; `self.size += 1` panics on overflow. -/
def insert (self : PartialMerkleTree) (elem : MerkleHash) : Option PartialMerkleTree := do
  let (node, path) ← insertLoop hash self.size elem self.path
  let size ← UInt64.checkedAdd self.size 1
  pure ⟨path ++ [node], size⟩

/-- `h_1, …, h_m` inserted one after the other into `PartialMerkleTree::default()`. -/
def insertAll (hashes : List MerkleHash) : Option PartialMerkleTree :=
  hashes.foldlM (insert hash) default

end PartialMerkleTree

/-! ## Proofs of leaves by blocks -/

section Proofs

/-- The neighbour of node `m` in its pair. -/
def sibling (m : ℕ) : ℕ := if m % 2 = 0 then m + 1 else m - 1

theorem sibling_of_even {m : ℕ} (hm : m % 2 = 0) : sibling m = m + 1 := by
  simp [sibling, hm]

theorem sibling_of_odd {m : ℕ} (hm : m % 2 = 1) : sibling m = m - 1 := by
  simp [sibling, hm]

@[simp] theorem sibling_sibling (m : ℕ) : sibling (sibling m) = m := by
  rcases Nat.mod_two_eq_zero_or_one m with hm | hm
  · rw [sibling_of_even hm, sibling_of_odd (by omega)]
    rfl
  · rw [sibling_of_odd hm, sibling_of_even (by omega)]
    omega

theorem sibling_eq_iff {m i : ℕ} : sibling m = i ↔ m = sibling i := by
  constructor
  · rintro rfl
    rw [sibling_sibling]
  · rintro rfl
    rw [sibling_sibling]

theorem sibling_mod_two {m : ℕ} : sibling m % 2 = 0 ↔ m % 2 = 1 := by
  rcases Nat.mod_two_eq_zero_or_one m with hm | hm
  · rw [sibling_of_even hm]
    omega
  · rw [sibling_of_odd hm]
    omega

theorem mem_run_iff_div_eq {s c j : ℕ} (hc : 0 < c) :
    s * c ≤ j ∧ j < s * c + c ↔ j / c = s := by
  rw [Nat.div_eq_iff hc]
  omega

variable (hash : List UInt8 → CryptoHash)

/-- Step `k` of the proof of leaf `j`: the root of the block beside `j`'s block of level `k`,
on its side, when that block has leaves. -/
def proofStep (leaves : List MerkleHash) (k j : ℕ) : Option MerklePathItem :=
  let m := j / 2 ^ k
  if block k (sibling m) leaves = [] then none
  else some ⟨root (combineHash hash) CryptoHash.default (block k (sibling m) leaves),
    if m % 2 = 0 then .right else .left⟩

/-- The proof of leaf `j` through level `k`: the steps of the levels below `k` that exist. -/
def proof (leaves : List MerkleHash) (k j : ℕ) : MerklePath :=
  (List.range k).filterMap (proofStep hash leaves · j)

variable {hash}

theorem computeRootFromPath_nil (x : MerkleHash) : computeRootFromPath hash [] x = x := rfl

@[simp] theorem computeRootFromPath_append_left (path : MerklePath) (h x : MerkleHash) :
    computeRootFromPath hash (path ++ [⟨h, .left⟩]) x =
      combineHash hash h (computeRootFromPath hash path x) := by
  simp [computeRootFromPath, List.foldl_append]

@[simp] theorem computeRootFromPath_append_right (path : MerklePath) (h x : MerkleHash) :
    computeRootFromPath hash (path ++ [⟨h, .right⟩]) x =
      combineHash hash (computeRootFromPath hash path x) h := by
  simp [computeRootFromPath, List.foldl_append]

theorem proof_succ (leaves : List MerkleHash) (k j : ℕ) :
    proof hash leaves (k + 1) j = proof hash leaves k j ++ (proofStep hash leaves k j).toList := by
  rw [proof, proof, List.range_succ, List.filterMap_append]
  cases hstep : proofStep hash leaves k j <;> simp [hstep]

theorem length_proof_le (leaves : List MerkleHash) (k j : ℕ) :
    (proof hash leaves k j).length ≤ k := by
  calc (proof hash leaves k j).length ≤ (List.range k).length := List.length_filterMap_le _ _
    _ = k := List.length_range

theorem proofStep_of_length_le {leaves : List MerkleHash} {k j : ℕ}
    (hfit : leaves.length ≤ 2 ^ k) (hj : j < leaves.length) : proofStep hash leaves k j = none := by
  have hzero : j / 2 ^ k = 0 := Nat.div_eq_of_lt (by omega)
  have hempty : block k (sibling (j / 2 ^ k)) leaves = [] := by
    rw [hzero, sibling_of_even (by norm_num), block_eq_nil_iff, zero_add, one_mul]
    exact hfit
  simp [proofStep, hempty]

theorem block_ne_nil_of_lt {leaves : List MerkleHash} {k j : ℕ} (hj : j < leaves.length) :
    block k (j / 2 ^ k) leaves ≠ [] := by
  rw [Ne, block_eq_nil_iff, not_le]
  exact lt_of_le_of_lt (Nat.div_mul_le_self j (2 ^ k)) hj

theorem computeRootFromPath_proof {leaves : List MerkleHash} {j : ℕ} (hj : j < leaves.length)
    (k : ℕ) :
    computeRootFromPath hash (proof hash leaves k j) leaves[j] =
      root (combineHash hash) CryptoHash.default (block k (j / 2 ^ k) leaves) := by
  induction k with
  | zero => simp [proof, computeRootFromPath_nil, block_zero hj]
  | succ k ih =>
    set m := j / 2 ^ k with hm
    have hhalf : j / 2 ^ (k + 1) = m / 2 := by
      rw [hm, Nat.div_div_eq_div_mul, pow_succ]
    have hown : block k m leaves ≠ [] := block_ne_nil_of_lt hj
    rw [proof_succ, hhalf, root_block_succ]
    rcases Nat.mod_two_eq_zero_or_one m with heven | hodd
    · -- `j`'s block is the left one of its pair
      have h2 : 2 * (m / 2) = m := by omega
      rw [h2]
      by_cases hsib : block k (m + 1) leaves = []
      · rw [if_pos hsib]
        simp [proofStep, ← hm, sibling_of_even heven, hsib, ih]
      · rw [if_neg hsib]
        simp [proofStep, ← hm, sibling_of_even heven, hsib, heven, ih]
    · -- `j`'s block is the right one, and its left neighbour has leaves
      have h2 : 2 * (m / 2) + 1 = m := by omega
      have h2' : 2 * (m / 2) = m - 1 := by omega
      have hleft : block k (m - 1) leaves ≠ [] := by
        rw [Ne, block_eq_nil_iff, not_le] at hown ⊢
        have : (m - 1) * 2 ^ k ≤ m * 2 ^ k := Nat.mul_le_mul_right _ (Nat.sub_le m 1)
        omega
      rw [h2, h2', if_neg hown]
      simp [proofStep, ← hm, sibling_of_odd hodd, hleft, hodd, ih]

end Proofs

/-! ## The rounds of a level -/

section Rounds

variable {n start counter : ℕ} {item : MerklePathItem} {paths : List MerklePath}

theorem pushToLeaves_succ :
    pushToLeaves n start (counter + 1) item paths =
      if start + counter < n then
        (pushToLeaves n start counter item paths).modify (start + counter) (· ++ [item])
      else pushToLeaves n start counter item paths := by
  simp only [pushToLeaves, List.range_succ, List.foldl_append, List.foldl_cons, List.foldl_nil]

@[simp] theorem length_pushToLeaves :
    (pushToLeaves n start counter item paths).length = paths.length := by
  induction counter with
  | zero => rfl
  | succ counter ih =>
    rw [pushToLeaves_succ]
    split_ifs <;> simp [ih]

theorem getElem?_pushToLeaves (j : ℕ) :
    (pushToLeaves n start counter item paths)[j]? =
      if start ≤ j ∧ j < start + counter ∧ j < n then paths[j]?.map (· ++ [item])
      else paths[j]? := by
  induction counter with
  | zero =>
    have : ¬(start ≤ j ∧ j < start + 0 ∧ j < n) := by omega
    rw [if_neg this]
    rfl
  | succ counter ih =>
    rw [pushToLeaves_succ]
    by_cases hj : j = start + counter
    · -- the leaf reached in this turn
      subst hj
      by_cases hn : start + counter < n
      · rw [if_pos hn, List.getElem?_modify_eq, ih, if_neg (by omega), if_pos (by omega)]
        rfl
      · rw [if_neg hn, ih, if_neg (by omega), if_neg (by omega)]
    · -- another leaf: this turn leaves it alone
      have hleft : ∀ p : List MerklePath,
          (if start + counter < n then p.modify (start + counter) (· ++ [item]) else p)[j]? =
            p[j]? := by
        intro p
        split_ifs
        · exact List.getElem?_modify_ne _ _ (Ne.symm hj)
        · rfl
      have hrange : (start ≤ j ∧ j < start + (counter + 1) ∧ j < n) ↔
          (start ≤ j ∧ j < start + counter ∧ j < n) := by omega
      rw [hleft, ih]
      simp only [hrange]

end Rounds

/-! ## Levels -/

section Levels

/-- The state of `merklize` at the start of level `t`: `hashes[i]` is the root of block `i` of
level `t` for the first `arrLen` blocks, which are those with leaves, and every proof
reaches level `t + 1`. -/
structure LevelInvariant (leaves : List MerkleHash) (t arrLen : ℕ)
    (state : List MerkleHash × List MerklePath) : Prop where
  lt_arrLen_iff : ∀ i, i < arrLen ↔ i * 2 ^ t < leaves.length
  length_hashes : state.1.length = leaves.length
  getElem?_hashes : ∀ i < arrLen,
    state.1[i]? = some (root (combineHash hash) CryptoHash.default (block t i leaves))
  paths_eq : state.2 = (List.range leaves.length).map (proof hash leaves (t + 1))

/-- The state of level `t` before round `next` of `for i in 0..len`: the nodes of level `t + 1`
below `next` are written, the hashes from `next` on are still those of level `t`, and the
leaves under the neighbours of the written nodes carry one more proof step. -/
structure RoundInvariant (leaves : List MerkleHash) (t arrLen len : ℕ) (old : List MerkleHash)
    (next : ℕ) (state : List MerkleHash × List MerklePath) : Prop where
  length_hashes : state.1.length = leaves.length
  getElem?_done : ∀ i < next, 2 * i < arrLen →
    state.1[i]? = some (root (combineHash hash) CryptoHash.default (block (t + 1) i leaves))
  getElem?_rest : ∀ i, next ≤ i → state.1[i]? = old[i]?
  length_paths : state.2.length = leaves.length
  getElem?_paths : ∀ j < leaves.length, state.2[j]? = some (proof hash leaves (t + 1) j ++
    if 1 < len ∧ sibling (j / 2 ^ (t + 1)) < next then (proofStep hash leaves (t + 1) j).toList
    else [])

variable {hash}

/-- `mergeNode` with its two pushes written as one: onto the leaves under the neighbour, with
the new node on its own side. -/
theorem mergeNode_eq (arrLength len counter arrLen : ℕ)
    (state : List MerkleHash × List MerklePath) (i : ℕ) :
    mergeNode hash arrLength len counter arrLen state i =
      if 2 * i ≥ arrLen then state
      else
        let nodeHash :=
          if 2 * i + 1 ≥ arrLen then state.1[2 * i]!
          else combineHash hash state.1[2 * i]! state.1[2 * i + 1]!
        (state.1.set i nodeHash,
          if len > 1 then
            pushToLeaves arrLength (sibling i * counter) counter
              ⟨nodeHash, if i % 2 = 0 then .left else .right⟩ state.2
          else state.2) := by
  obtain ⟨hashes, paths⟩ := state
  simp only [mergeNode]
  split_ifs with h1 h2 h3 <;> simp_all [sibling]


variable {leaves : List MerkleHash} {t arrLen len next : ℕ} {old : List MerkleHash}
  {oldPaths : List MerklePath} {state : List MerkleHash × List MerklePath}

theorem LevelInvariant.block_eq_nil_iff
    (hlevel : LevelInvariant hash leaves t arrLen (old, oldPaths)) (i : ℕ) : block t i leaves = [] ↔ ¬i < arrLen := by
  rw [MerkleList.block_eq_nil_iff, hlevel.lt_arrLen_iff, not_lt]

theorem LevelInvariant.double_lt_iff (hlevel : LevelInvariant hash leaves t arrLen (old, oldPaths))
    (i : ℕ) : 2 * i < arrLen ↔ i * 2 ^ (t + 1) < leaves.length := by
  rw [hlevel.lt_arrLen_iff, pow_succ, mul_comm 2 i, mul_assoc, mul_comm 2 (2 ^ t)]

theorem LevelInvariant.block_succ_eq_nil_iff
    (hlevel : LevelInvariant hash leaves t arrLen (old, oldPaths)) (i : ℕ) :
    block (t + 1) i leaves = [] ↔ ¬2 * i < arrLen := by
  rw [MerkleList.block_eq_nil_iff, hlevel.double_lt_iff, not_lt]

/-- The node a round writes is the root of its block one level up: the hashes it reads at
`2 i` and `2 i + 1` are still those of level `t`. -/
theorem RoundInvariant.nodeHash_eq (hlevel : LevelInvariant hash leaves t arrLen (old, oldPaths))
    (hround : RoundInvariant hash leaves t arrLen len old next state) (hnext : 2 * next < arrLen) :
    (if 2 * next + 1 ≥ arrLen then state.1[2 * next]!
      else combineHash hash state.1[2 * next]! state.1[2 * next + 1]!) =
      root (combineHash hash) CryptoHash.default (block (t + 1) next leaves) := by
  have hread : ∀ i, next ≤ i → i < arrLen →
      state.1[i]! = root (combineHash hash) CryptoHash.default (block t i leaves) := by
    intro i hi harr
    rw [List.getElem!_eq_getElem?_getD, hround.getElem?_rest i hi, hlevel.getElem?_hashes i harr]
    rfl
  rw [root_block_succ]
  by_cases hright : 2 * next + 1 < arrLen
  · rw [if_neg (by omega), if_neg ((hlevel.block_eq_nil_iff _).not.mpr (not_not.mpr hright)),
      hread _ (by omega) (by omega), hread _ (by omega) hright]
  · rw [if_pos (by omega), if_pos ((hlevel.block_eq_nil_iff _).mpr hright),
      hread _ (by omega) hnext]

theorem lt_length_of_double_lt (hlevel : LevelInvariant hash leaves t arrLen (old, oldPaths))
    (hnext : 2 * next < arrLen) : next < leaves.length := by
  have h := (hlevel.lt_arrLen_iff _).mp hnext
  have : next ≤ 2 * next * 2 ^ t := by
    have := Nat.two_pow_pos t
    nlinarith
  omega

theorem proofStep_of_sibling_eq (hlevel : LevelInvariant hash leaves t arrLen (old, oldPaths))
    {j : ℕ} (hj : sibling (j / 2 ^ (t + 1)) = next) :
    proofStep hash leaves (t + 1) j =
      if 2 * next < arrLen then
        some ⟨root (combineHash hash) CryptoHash.default (block (t + 1) next leaves),
          if next % 2 = 0 then .left else .right⟩
      else none := by
  have hside : (j / 2 ^ (t + 1)) % 2 = 0 ↔ ¬next % 2 = 0 := by
    rw [← hj, sibling_mod_two]
    omega
  simp only [proofStep, hj, hlevel.block_succ_eq_nil_iff]
  by_cases hnext : 2 * next < arrLen
  · by_cases hpar : next % 2 = 0 <;> simp [hnext, hpar, hside]
  · simp [hnext]

/-- One round keeps the round invariant. -/
theorem RoundInvariant.mergeNode (hlevel : LevelInvariant hash leaves t arrLen (old, oldPaths))
    (hround : RoundInvariant hash leaves t arrLen len old next state) :
    RoundInvariant hash leaves t arrLen len old (next + 1)
      (mergeNode hash leaves.length len (2 ^ (t + 1)) arrLen state next) := by
  rw [mergeNode_eq]
  by_cases hskip : 2 * next ≥ arrLen
  · -- `continue`: node `next` has no leaves, and neither has any proof step it would give
    rw [if_pos hskip]
    refine ⟨hround.length_hashes, ?_, ?_, hround.length_paths, ?_⟩
    · intro i hi h2i
      exact hround.getElem?_done i (by omega) h2i
    · intro i hi
      exact hround.getElem?_rest i (by omega)
    · intro j hj
      rw [hround.getElem?_paths j hj]
      by_cases heq : sibling (j / 2 ^ (t + 1)) = next
      · rw [proofStep_of_sibling_eq hlevel heq, if_neg (show ¬2 * next < arrLen by omega)]
        simp only [Option.toList_none, ite_self]
      · have hiff : sibling (j / 2 ^ (t + 1)) < next + 1 ↔ sibling (j / 2 ^ (t + 1)) < next := by
          omega
        simp only [hiff]
  have hnext : 2 * next < arrLen := by omega
  have hlt : next < state.1.length := by
    rw [hround.length_hashes]
    exact lt_length_of_double_lt hlevel hnext
  rw [if_neg hskip, hround.nodeHash_eq hlevel hnext]
  dsimp only
  refine ⟨by rw [List.length_set, hround.length_hashes], ?_, ?_, ?_, ?_⟩
  · intro i hi h2i
    rcases Nat.lt_succ_iff_lt_or_eq.mp hi with hi | rfl
    · rw [List.getElem?_set_ne (by omega)]
      exact hround.getElem?_done i hi h2i
    · rw [List.getElem?_set_self hlt]
  · intro i hi
    rw [List.getElem?_set_ne (by omega)]
    exact hround.getElem?_rest i (by omega)
  · split_ifs <;> simp [hround.length_paths]
  intro j hj
  by_cases hlen : len > 1
  · -- the leaves under the neighbour of `next` get their step of level `t + 1`
    rw [if_pos hlen, getElem?_pushToLeaves, hround.getElem?_paths j hj]
    by_cases heq : sibling (j / 2 ^ (t + 1)) = next
    · have hrun : sibling next * 2 ^ (t + 1) ≤ j ∧
          j < sibling next * 2 ^ (t + 1) + 2 ^ (t + 1) := by
        rw [mem_run_iff_div_eq (Nat.two_pow_pos _), ← sibling_eq_iff, heq]
      rw [if_pos ⟨hrun.1, hrun.2, hj⟩, proofStep_of_sibling_eq hlevel heq, if_pos hnext,
        if_neg (show ¬(1 < len ∧ sibling (j / 2 ^ (t + 1)) < next) by omega),
        if_pos (show 1 < len ∧ sibling (j / 2 ^ (t + 1)) < next + 1 by omega)]
      simp
    · have hrun : ¬(sibling next * 2 ^ (t + 1) ≤ j ∧
          j < sibling next * 2 ^ (t + 1) + 2 ^ (t + 1)) := by
        rw [mem_run_iff_div_eq (Nat.two_pow_pos _), ← sibling_eq_iff]
        exact heq
      have hiff : sibling (j / 2 ^ (t + 1)) < next + 1 ↔ sibling (j / 2 ^ (t + 1)) < next := by
        omega
      rw [if_neg (fun h => hrun ⟨h.1, h.2.1⟩)]
      simp only [hiff]
  · -- a level of one node pushes nothing
    rw [if_neg hlen, hround.getElem?_paths j hj,
      if_neg (show ¬(1 < len ∧ sibling (j / 2 ^ (t + 1)) < next) by omega),
      if_neg (show ¬(1 < len ∧ sibling (j / 2 ^ (t + 1)) < next + 1) by omega)]

theorem LevelInvariant.roundInvariant_zero
    (hlevel : LevelInvariant hash leaves t arrLen (old, oldPaths)) :
    RoundInvariant hash leaves t arrLen len old 0 (old, oldPaths) := by
  refine ⟨hlevel.length_hashes, fun i hi => absurd hi (Nat.not_lt_zero i), fun i _ => rfl, ?_, ?_⟩
  · rw [hlevel.paths_eq, List.length_map, List.length_range]
  · intro j hj
    rw [hlevel.paths_eq, if_neg (by omega)]
    simp [hj]

/-- The rounds `0, …, next - 1` of a level keep the round invariant. -/
theorem LevelInvariant.roundInvariant_foldl
    (hlevel : LevelInvariant hash leaves t arrLen (old, oldPaths)) (next : ℕ) :
    RoundInvariant hash leaves t arrLen len old next
      ((List.range next).foldl (mergeNode hash leaves.length len (2 ^ (t + 1)) arrLen)
        (old, oldPaths)) := by
  induction next with
  | zero => exact hlevel.roundInvariant_zero
  | succ next ih =>
    rw [List.range_succ, List.foldl_append, List.foldl_cons, List.foldl_nil]
    exact ih.mergeNode hlevel

/-- A whole level: after the rounds `0, …, len - 1` the state is that of the next level,
`len` being the number of nodes of the next level. -/
theorem LevelInvariant.rounds (hlevel : LevelInvariant hash leaves t arrLen (old, oldPaths))
    {r : ℕ} (hleaves : leaves.length ≤ 2 ^ (t + 1 + r)) :
    LevelInvariant hash leaves (t + 1) ((arrLen + 1) / 2)
      ((List.range (2 ^ r)).foldl (mergeNode hash leaves.length (2 ^ r) (2 ^ (t + 1)) arrLen)
        (old, oldPaths)) := by
  have hround : RoundInvariant hash leaves t arrLen (2 ^ r) old (2 ^ r) _ :=
    hlevel.roundInvariant_foldl (2 ^ r)
  have hsplit : 2 ^ (t + 1 + r) = 2 ^ (t + 1) * 2 ^ r := pow_add _ _ _
  have hnode : ∀ j < leaves.length, j / 2 ^ (t + 1) < 2 ^ r := by
    intro j hj
    rw [Nat.div_lt_iff_lt_mul (Nat.two_pow_pos _), mul_comm, ← hsplit]
    omega
  refine ⟨?_, hround.length_hashes, ?_, ?_⟩
  · intro i
    rw [← hlevel.double_lt_iff]
    omega
  · intro i hi
    have h2i : 2 * i < arrLen := by omega
    have hilen : i < 2 ^ r := by
      have h := (hlevel.double_lt_iff i).mp h2i
      rw [mul_comm] at h
      exact Nat.lt_of_mul_lt_mul_left (lt_of_lt_of_le h (hsplit ▸ hleaves))
    exact hround.getElem?_done i hilen h2i
  · apply List.ext_getElem?
    intro j
    by_cases hj : j < leaves.length
    · rw [hround.getElem?_paths j hj, List.getElem?_map, List.getElem?_range hj, Option.map_some,
        proof_succ leaves (t + 1) j]
      congr 2
      rcases Nat.lt_or_ge 1 (2 ^ r) with hlen | hlen
      · -- at least two nodes: the neighbour of `j`'s node is one of them
        have hsib : sibling (j / 2 ^ (t + 1)) < 2 ^ r := by
          have hm := hnode j hj
          have heven : 2 ^ r % 2 = 0 := by
            obtain ⟨r', rfl⟩ : ∃ r', r = r' + 1 := ⟨r - 1, by
              rcases r with _ | r
              · simp at hlen
              · simp⟩
            rw [pow_succ]
            omega
          rcases Nat.mod_two_eq_zero_or_one (j / 2 ^ (t + 1)) with hpar | hpar
          · rw [sibling_of_even hpar]
            omega
          · rw [sibling_of_odd hpar]
            omega
        rw [if_pos ⟨hlen, hsib⟩]
      · -- one node, the root: no leaf has a neighbour block
        have hr : 2 ^ r = 1 := by
          have := Nat.two_pow_pos r
          omega
        have hfit : leaves.length ≤ 2 ^ (t + 1) := by
          rw [hsplit, hr, mul_one] at hleaves
          exact hleaves
        have hnone : proofStep hash leaves (t + 1) j = none := proofStep_of_length_le hfit hj
        rw [if_neg (by omega), hnone]
        rfl
    · have hlen : leaves.length ≤ j := by omega
      rw [List.getElem?_eq_none (by rw [hround.length_paths]; exact hlen),
        List.getElem?_eq_none (by simpa using hlen)]

/-- The loop from level `t` with `2 ^ r` nodes in the level above ends with the root in
`hashes[0]` and the proofs through level `t + r`; induction on the levels left. -/
theorem LevelInvariant.merklizeLoop (hpos : 0 < leaves.length) (r : ℕ) :
    ∀ {t arrLen : ℕ} {state : List MerkleHash × List MerklePath},
      leaves.length ≤ 2 ^ (t + r) → LevelInvariant hash leaves t arrLen state →
      (Merkle.merklizeLoop hash leaves.length (2 ^ r) (2 ^ t) arrLen state).1[0]? =
          some (root (combineHash hash) CryptoHash.default leaves) ∧
        (Merkle.merklizeLoop hash leaves.length (2 ^ r) (2 ^ t) arrLen state).2 =
          (List.range leaves.length).map (proof hash leaves (t + r)) := by
  induction r with
  | zero =>
    intro t arrLen state hfit hlevel
    rw [Merkle.merklizeLoop, if_neg (by norm_num)]
    rw [Nat.add_zero] at hfit ⊢
    refine ⟨?_, ?_⟩
    · rw [hlevel.getElem?_hashes 0 ((hlevel.lt_arrLen_iff 0).mpr (by simpa using hpos)),
        block_zero_of_length_le hfit]
    · rw [hlevel.paths_eq]
      apply List.map_congr_left
      intro j hj
      rw [proof_succ, proofStep_of_length_le hfit (List.mem_range.mp hj), Option.toList_none,
        List.append_nil]
  | succ r ih =>
    intro t arrLen state hfit hlevel
    obtain ⟨old, oldPaths⟩ := state
    have hlen : 2 ^ (r + 1) / 2 = 2 ^ r := by rw [pow_succ, Nat.mul_div_cancel _ (by norm_num)]
    rw [Merkle.merklizeLoop, if_pos (Nat.one_lt_two_pow (by omega))]
    simp only [hlen, ← pow_succ]
    have hnext := hlevel.rounds (r := r) (by rw [show t + 1 + r = t + (r + 1) by omega]; exact hfit)
    have := ih (by rw [show t + 1 + r = t + (r + 1) by omega]; exact hfit) hnext
    rw [show t + 1 + r = t + (r + 1) by omega] at this
    exact this

theorem initialPath_eq {leaves : List MerkleHash} {j : ℕ} (hj : j < leaves.length) :
    initialPath leaves leaves.length j = proof hash leaves 1 j := by
  have hproof : proof hash leaves 1 j = (proofStep hash leaves 0 j).toList := by
    rw [proof_succ]
    rfl
  rw [hproof, initialPath]
  rcases Nat.mod_two_eq_zero_or_one j with hpar | hpar
  · -- an even leaf: its neighbour is the next one, if there is one
    by_cases hnext : j + 1 < leaves.length
    · rw [if_pos hpar, if_pos hnext, getElem!_pos leaves (j + 1) hnext]
      simp [proofStep, sibling_of_even hpar, block_zero hnext, hpar]
    · have hempty : block 0 (j + 1) leaves = [] := by
        rw [MerkleList.block_eq_nil_iff]
        simpa using hnext
      rw [if_pos hpar, if_neg hnext]
      simp [proofStep, sibling_of_even hpar, hempty]
  · -- an odd leaf: its neighbour is the one before
    have hprev : j - 1 < leaves.length := by omega
    rw [if_neg (by omega), getElem!_pos leaves (j - 1) hprev]
    simp [proofStep, sibling_of_odd hpar, block_zero hprev, hpar]

/-- Before the loop: the leaves are the nodes of level `0` and every proof reaches level `1`. -/
theorem levelInvariant_initial (leaves : List MerkleHash) :
    LevelInvariant hash leaves 0 leaves.length
      (leaves, (List.range leaves.length).map (initialPath leaves leaves.length)) := by
  refine ⟨fun i => by simp, rfl, ?_, ?_⟩
  · intro i hi
    rw [block_zero hi, root_singleton, List.getElem?_eq_getElem hi]
  · apply List.map_congr_left
    intro j hj
    exact initialPath_eq (List.mem_range.mp hj)

section Items

variable {α : Type} (toBorsh : α → List UInt8)

/-- `merklize` computes the reference root of the items' hashes, and the proof of every leaf
through all `⌈log₂ n⌉` levels. -/
theorem merklize_eq (arr : List α) :
    merklize hash toBorsh arr =
      (root (combineHash hash) CryptoHash.default (arr.map (hashBorsh hash toBorsh)),
        (List.range arr.length).map
          (proof hash (arr.map (hashBorsh hash toBorsh)) (Nat.clog 2 arr.length))) := by
  set leaves := arr.map (hashBorsh hash toBorsh) with hleaves
  rcases Nat.lt_or_ge arr.length 2 with hsmall | hlarge
  · rcases arr with _ | ⟨a, _ | ⟨b, rest⟩⟩
    · simp [merklize, hleaves]
    · -- one item: the degenerate case
      simp [merklize, hleaves, nextPowerOfTwo, proof]
    · simp at hsmall
  · obtain ⟨k, hlo, hhi⟩ := exists_pow_lt_le hlarge
    have hne : arr.isEmpty = false := by
      cases arr with
      | nil => simp at hlarge
      | cons _ _ => rfl
    have hlen : leaves.length = arr.length := by rw [hleaves, List.length_map]
    have hloop := (@levelInvariant_initial hash leaves).merklizeLoop
      (by omega) (k + 1) (by rw [hlen, Nat.zero_add]; exact hhi)
    rw [hlen, pow_zero, Nat.zero_add] at hloop
    rw [merklize, if_neg (by simp [hne]), nextPowerOfTwo_eq hlo hhi,
      if_neg (Nat.one_lt_two_pow (by omega)).ne', clog_eq_of_lt_of_le hlo hhi]
    simp only [← hleaves]
    rw [List.getElem!_eq_getElem?_getD, hloop.1, hloop.2]
    rfl

end Items

end Levels

/-! ## The partial tree keeps the peaks -/

section PartialTree

namespace PartialMerkleTree

variable {hash : List UInt8 → CryptoHash}

theorem root_eq_foldRight (tree : PartialMerkleTree) :
    tree.root hash = foldRight (combineHash hash) CryptoHash.default tree.path := by
  rw [root]
  rcases hlast : tree.path.getLast? with _ | last
  · rw [List.getLast?_eq_none_iff.mp hlast]
    rfl
  · obtain ⟨init, hpath⟩ := List.getLast?_eq_some_iff.mp hlast
    rw [hpath, List.dropLast_concat, foldRight_append_singleton]

theorem uint64_mod_two_eq_one_iff (s : UInt64) : s % 2 = 1 ↔ s.toNat % 2 = 1 := by
  rw [← UInt64.toNat_inj, UInt64.toNat_mod]
  rfl

/-- The carry of `insert`: from a node that is the root of a perfect tree `x` of `2 ^ i`
leaves after the leaves `p`, the loop ends with a path and a node that are together the
peaks of `p ++ x`.  Induction on the length of `p`; each turn moves the last peak of `p`,
a perfect tree of `2 ^ i` leaves, into the node. -/
theorem insertLoop_peaks (n : ℕ) :
    ∀ (p x : List MerkleHash) (i : ℕ) (s : UInt64), p.length = n → s.toNat = p.length / 2 ^ i →
      x.length = 2 ^ i → 2 ^ i ∣ p.length →
      ∃ node path, insertLoop hash s (MerkleList.root (combineHash hash) CryptoHash.default x)
          (peaks (combineHash hash) CryptoHash.default p) = some (node, path) ∧
        path ++ [node] = peaks (combineHash hash) CryptoHash.default (p ++ x) := by
  induction n using Nat.strong_induction_on with
  | _ n ih =>
    intro p x i s hn hs hx hdvd
    obtain ⟨q, hq⟩ := hdvd
    have hpos := Nat.two_pow_pos i
    have hsq : s.toNat = q := by rw [hs, hq, Nat.mul_div_cancel_left _ hpos]
    rw [insertLoop]
    rcases Nat.mod_two_eq_zero_or_one q with heven | hodd
    · -- the size has a zero here: the node becomes the last peak
      rw [if_neg (by rw [uint64_mod_two_eq_one_iff, hsq]; omega)]
      refine ⟨_, _, rfl, ?_⟩
      have hdvd' : 2 ^ (i + 1) ∣ p.length := by
        have hhalf : q = 2 * (q / 2) := by omega
        exact ⟨q / 2, by rw [hq, pow_succ, mul_assoc, ← hhalf]⟩
      rw [peaks_append hdvd' (by rw [hx, pow_succ]; omega), peaks_of_length_eq hx]
    · -- the size has a one here: the last peak of `p` joins the node
      rw [if_pos (by rw [uint64_mod_two_eq_one_iff, hsq, hodd])]
      set p₁ := p.take (p.length - 2 ^ i) with hp₁
      set y := p.drop (p.length - 2 ^ i) with hy
      have hqpos : 1 ≤ q := by omega
      have hle : 2 ^ i ≤ p.length := by rw [hq]; exact Nat.le_mul_of_pos_right _ hqpos
      have hylen : y.length = 2 ^ i := by rw [hy, List.length_drop]; omega
      have hp₁len : p₁.length = 2 ^ (i + 1) * (q / 2) := by
        rw [hp₁, List.length_take, min_eq_left (Nat.sub_le _ _), hq, pow_succ]
        have : 2 ^ i * q - 2 ^ i = 2 ^ i * (q - 1) := by rw [Nat.mul_sub, mul_one]
        rw [this, mul_assoc]
        congr 1
        omega
      have hsplit : p₁ ++ y = p := List.take_append_drop _ _
      have hpeaks : peaks (combineHash hash) CryptoHash.default p =
          peaks (combineHash hash) CryptoHash.default p₁ ++
            [MerkleList.root (combineHash hash) CryptoHash.default y] := by
        rw [← hsplit, peaks_append ⟨q / 2, hp₁len⟩ (by rw [hylen, pow_succ]; omega),
          peaks_of_length_eq hylen]
      rw [hpeaks, List.getLast?_concat, List.dropLast_concat]
      dsimp only
      rw [← root_append_of_length_eq (f := combineHash hash) (d := CryptoHash.default) hylen hx]
      have hs' : (s / 2).toNat = p₁.length / 2 ^ (i + 1) := by
        rw [UInt64.toNat_div, hsq, hp₁len, Nat.mul_div_cancel_left _ (Nat.two_pow_pos _)]
        rfl
      have hshorter : p₁.length < p.length := by
        rw [hp₁, List.length_take]
        omega
      obtain ⟨node, path, hrun, hpath⟩ := ih p₁.length (hn ▸ hshorter)
        p₁ (y ++ x) (i + 1) (s / 2) rfl hs' (by rw [List.length_append, hylen, hx, pow_succ]; ring)
        ⟨q / 2, hp₁len⟩
      refine ⟨node, path, hrun, ?_⟩
      rw [hpath, ← List.append_assoc, hsplit]

theorem insert_peaks {tree : PartialMerkleTree} {leaves : List MerkleHash}
    (hpath : tree.path = peaks (combineHash hash) CryptoHash.default leaves)
    (hsize : tree.size.toNat = leaves.length) (elem : MerkleHash) :
    tree.insert hash elem =
      if leaves.length + 1 < 2 ^ 64 then
        some ⟨peaks (combineHash hash) CryptoHash.default (leaves ++ [elem]), tree.size + 1⟩
      else none := by
  obtain ⟨node, path, hrun, hpeaks⟩ := @insertLoop_peaks hash leaves.length leaves [elem] 0 tree.size rfl (by rw [hsize, pow_zero, Nat.div_one]) rfl (by rw [pow_zero]; exact one_dvd _)
  rw [root_singleton, ← hpath] at hrun
  rw [insert, hrun]
  simp only [Option.bind_eq_bind, Option.bind_some, UInt64.checkedAdd, hsize, UInt64.toNat_one]
  split_ifs
  · rw [Option.bind_some, ← hpeaks]
    rfl
  · rfl

theorem foldlM_insert_peaks (hashes : List MerkleHash) :
    ∀ (tree : PartialMerkleTree) (leaves : List MerkleHash),
      tree.path = peaks (combineHash hash) CryptoHash.default leaves →
      tree.size.toNat = leaves.length →
      hashes.foldlM (insert hash) tree =
        if leaves.length + hashes.length < 2 ^ 64 then
          some ⟨peaks (combineHash hash) CryptoHash.default (leaves ++ hashes),
            UInt64.ofNat (leaves.length + hashes.length)⟩
        else none := by
  induction hashes with
  | nil =>
    intro tree leaves hpath hsize
    have hlt : leaves.length < 2 ^ 64 := hsize ▸ UInt64.toNat_lt tree.size
    rw [List.foldlM_nil, List.length_nil, Nat.add_zero, if_pos hlt, List.append_nil, ← hpath,
      ← hsize, UInt64.ofNat_toNat]
    rfl
  | cons elem hashes ih =>
    intro tree leaves hpath hsize
    rw [List.foldlM_cons, insert_peaks hpath hsize]
    by_cases hfit : leaves.length + 1 < 2 ^ 64
    · have hsize' : (tree.size + 1).toNat = (leaves ++ [elem]).length := by
        rw [UInt64.toNat_add, hsize, UInt64.toNat_one, List.length_append, List.length_singleton,
          Nat.mod_eq_of_lt hfit]
      rw [if_pos hfit, Option.bind_eq_bind, Option.bind_some, ih _ _ rfl hsize', List.append_assoc,
        List.singleton_append,
        List.length_append, List.length_singleton, List.length_cons, Nat.add_comm hashes.length 1,
        Nat.add_assoc]
    · rw [if_neg hfit, if_neg (by rw [List.length_cons]; omega)]
      rfl

/-- After `m` inserts into the default tree, the path is the peaks of the `m` hashes, unless
`m` does not fit in the `u64` size. -/
theorem insertAll_eq (hashes : List MerkleHash) :
    insertAll hash hashes =
      if hashes.length < 2 ^ 64 then
        some ⟨peaks (combineHash hash) CryptoHash.default hashes, UInt64.ofNat hashes.length⟩
      else none := by
  rw [insertAll, foldlM_insert_peaks hashes default [] (by rw [peaks_nil]; rfl) rfl,
    List.length_nil, Nat.zero_add, List.nil_append]

end PartialMerkleTree

end PartialTree

/-! ## Roots, proofs and the partial tree agree -/

section Agreement

variable {α : Type} (toBorsh : α → List UInt8)

theorem computeRootFromPath_merklize (arr : List α) {i : ℕ} (hi : i < arr.length) :
    computeRootFromPath hash (merklize hash toBorsh arr).2[i]! (hashBorsh hash toBorsh arr[i]) =
      (merklize hash toBorsh arr).1 := by
  rw [merklize_eq]
  set leaves := arr.map (hashBorsh hash toBorsh) with hleaves
  have hlen : leaves.length = arr.length := List.length_map _
  have hi' : i < leaves.length := hlen ▸ hi
  have hfit : leaves.length ≤ 2 ^ Nat.clog 2 arr.length := hlen ▸ Nat.le_pow_clog (by norm_num) _
  have hleaf : hashBorsh hash toBorsh arr[i] = leaves[i] := by simp [hleaves]
  rw [getElem!_pos _ i (by simpa using hi), List.getElem_map, List.getElem_range, hleaf,
    computeRootFromPath_proof hi', Nat.div_eq_of_lt (by omega), block_zero_of_length_le hfit]

/-- Every item passes `verify_path` against the root and the proof `merklize` gives it. -/
theorem verifyPath_merklize (arr : List α) {i : ℕ} (hi : i < arr.length) :
    verifyPath hash toBorsh (merklize hash toBorsh arr).1 (merklize hash toBorsh arr).2[i]! arr[i] =
      true := by
  simp only [verifyPath, verifyHash, computeRootFromPath_merklize hash toBorsh arr hi, beq_self_eq_true]

theorem length_merklize (arr : List α) : (merklize hash toBorsh arr).2.length = arr.length := by
  simp [merklize_eq]

/-- `merklize` gives one proof per item, the reference root of the item hashes, proofs that fold
back to that root and have at most `⌈log₂ n⌉` steps; inserting `m` hashes into the default
partial tree succeeds exactly when `m` fits in its `u64` size, and then its size is `m`, its
path has `popcount m` entries and its root is the reference root of the hashes. -/
theorem merklize_partialMerkleTree_agree (arr : List α) (hashes : List MerkleHash) :
    (merklize hash toBorsh arr).2.length = arr.length ∧
    (merklize hash toBorsh arr).1 =
      MerkleList.root (combineHash hash) CryptoHash.default (arr.map (hashBorsh hash toBorsh)) ∧
    (∀ i (hi : i < arr.length),
      computeRootFromPath hash (merklize hash toBorsh arr).2[i]! (hashBorsh hash toBorsh arr[i]) =
        (merklize hash toBorsh arr).1) ∧
    (∀ path ∈ (merklize hash toBorsh arr).2, path.length ≤ Nat.clog 2 arr.length) ∧
    ((PartialMerkleTree.insertAll hash hashes).isSome ↔ hashes.length < 2 ^ 64) ∧
    ∀ tree, PartialMerkleTree.insertAll hash hashes = some tree →
      tree.size.toNat = hashes.length ∧ tree.path.length = popcount hashes.length ∧
      tree.root hash = MerkleList.root (combineHash hash) CryptoHash.default hashes := by
  rw [merklize_eq, PartialMerkleTree.insertAll_eq]
  set leaves := arr.map (hashBorsh hash toBorsh) with hleaves
  have hlen : leaves.length = arr.length := List.length_map _
  refine ⟨by simp, rfl, ?_, ?_, ?_, ?_⟩
  · intro i hi
    have hroot := computeRootFromPath_merklize hash toBorsh arr hi
    rwa [merklize_eq] at hroot
  · intro path hpath
    obtain ⟨j, -, rfl⟩ := List.mem_map.mp hpath
    exact length_proof_le _ _ _
  · split_ifs with hfit
    · exact ⟨fun _ => hfit, fun _ => rfl⟩
    · exact ⟨fun h => absurd h (by simp), fun h => absurd h hfit⟩
  · intro tree htree
    split_ifs at htree with hfit
    obtain rfl := Option.some.inj htree.symm
    refine ⟨?_, length_peaks hashes, ?_⟩
    · rw [UInt64.toNat_ofNat', Nat.mod_eq_of_lt hfit]
    · rw [PartialMerkleTree.root_eq_foldRight, foldRight_peaks]

end Agreement

end Nearcore.Merkle
