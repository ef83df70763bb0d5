import Nearcore.RustArith
import Nearcore.Primitives
import Nearcore.BTreeMap

/-!
# The transaction pool

`TransactionPool`, `PoolIteratorWrapper` and `TransactionGroup` of the
`near-pool` crate (`lib.rs`, `types.rs`).  A `.expect(..)` that fails and an
overflow of a checked sum abort the node (the release profile sets
`panic = "abort"` and `overflow-checks = true`); the model returns `none`
there.  The metrics calls are left out.

`PoolIteratorWrapper::next` returns a mutable reference to the group it just
pushed to the back of `sorted_groups`, and the caller pulls transactions from
it with `TransactionGroup::next` before it calls `next` again.  The model
returns whether there is such a group, and `groupNext` pops from the back
group, which is what the reference points at.

The pool key is `hash(borsh(public_key) ++ key_seed ++ account_id)`; the hash
function is a parameter.
-/

namespace Nearcore
namespace Pool

/-- `pub(crate) type PoolKey = CryptoHash`. -/
abbrev PoolKey := CryptoHash

/-- `RngSeed = [u8; 32]`. -/
abbrev RngSeed := Vector UInt8 32

inductive InsertTransactionResult where
  | success
  | duplicate
  | noSpaceLeft
  deriving DecidableEq, Repr

structure TransactionPool where
  transactions : BTreeMap PoolKey (List SignedTransaction)
  uniqueTransactions : Finset CryptoHash
  keySeed : RngSeed
  lastUsedKey : PoolKey
  totalTransactionSizeLimit : Option UInt64
  totalTransactionSize : UInt64

namespace TransactionPool

def new (keySeed : RngSeed) (totalTransactionSizeLimit : Option UInt64) : TransactionPool :=
  { keySeed
    transactions := BTreeMap.empty
    uniqueTransactions := ∅
    lastUsedKey := CryptoHash.default
    totalTransactionSizeLimit
    totalTransactionSize := 0 }

variable (hash : List UInt8 → CryptoHash)

def key (self : TransactionPool) (accountId : AccountId) (publicKey : PublicKey) : PoolKey :=
  hash (publicKey.toBorsh ++ self.keySeed.toList ++ accountId.toUTF8.toList)

/-- The pool key of a transaction's signer and public key. -/
def txKey (self : TransactionPool) (tx : SignedTransaction) : PoolKey :=
  self.key hash tx.transaction.signerId tx.transaction.publicKey

/-- `TransactionPool::insert_transaction`.  The hash is added to
`unique_transactions` before the size check, and stays there when the check
fails. -/
def insertTransaction (self : TransactionPool) (signedTransaction : SignedTransaction) :
    Option (InsertTransactionResult × TransactionPool) :=
  if signedTransaction.getHash ∈ self.uniqueTransactions then some (.duplicate, self)
  else
    let self := { self with
      uniqueTransactions := insert signedTransaction.getHash self.uniqueTransactions }
    match self.totalTransactionSize.checkedAdd signedTransaction.getSize with
    | none => none
    | some newTotalTransactionSize =>
      let overLimit :=
        match self.totalTransactionSizeLimit with
        | some limit => decide (newTotalTransactionSize > limit)
        | none => false
      if overLimit then some (.noSpaceLeft, self)
      else
        let k := self.txKey hash signedTransaction
        some (.success,
          { self with
            totalTransactionSize := newTotalTransactionSize
            transactions :=
              self.transactions.insert k
                ((self.transactions.get? k).getD [] ++ [signedTransaction]) })

theorem insertTransaction_noSpaceLeft {self self' : TransactionPool} {tx : SignedTransaction}
    (h : self.insertTransaction hash tx = some (.noSpaceLeft, self')) :
    tx.getHash ∉ self.uniqueTransactions ∧
      self' = { self with uniqueTransactions := insert tx.getHash self.uniqueTransactions } := by
  unfold insertTransaction at h
  split at h
  · cases h
  · next hnew =>
      dsimp only at h
      split at h
      · cases h
      · split_ifs at h
        · cases h
          exact ⟨hnew, rfl⟩
        · cases h

theorem insertTransaction_noSpaceLeft_empty_pool :
    ∃ pool',
      (TransactionPool.new (Vector.replicate 32 0) (some 0)).insertTransaction hash
          ⟨⟨"alice", .ed25519 (Vector.replicate 32 0), 1⟩, CryptoHash.default, 1⟩ =
        some (.noSpaceLeft, pool') ∧
      pool'.transactions.isEmpty = true ∧ pool'.uniqueTransactions = {CryptoHash.default} ∧
      pool'.insertTransaction hash
          ⟨⟨"alice", .ed25519 (Vector.replicate 32 0), 1⟩, CryptoHash.default, 1⟩ =
        some (.duplicate, pool') := by
  refine ⟨_, rfl, rfl, rfl, ?_⟩
  simp [insertTransaction, SignedTransaction.getHash]

/-- `unique_transactions.remove(&hash)` for every hash of a list. -/
def forgetHashes (self : TransactionPool) (hashes : List CryptoHash) : TransactionPool :=
  { self with uniqueTransactions := hashes.foldl (fun s h => s.erase h) self.uniqueTransactions }

/-- The `retain` closure of `remove_transactions` over one group: keeps the
transactions whose hash is not in `hashes`, and subtracts the size of each
one it drops. -/
def retainGroup (hashes : Finset CryptoHash) :
    UInt64 → List SignedTransaction → Option (UInt64 × List SignedTransaction)
  | total, [] => some (total, [])
  | total, tx :: rest =>
    if tx.getHash ∉ hashes then
      (retainGroup hashes total rest).map fun (total, kept) => (total, tx :: kept)
    else
      match total.checkedSub tx.getSize with
      | none => none
      | some total => retainGroup hashes total rest

/-- `grouped.entry(key).or_insert_with(HashSet::new).insert(hash)` on a
`HashMap` kept as an association list in the order in which the keys first
appear. -/
def addRemovedHash (k : PoolKey) (h : CryptoHash) :
    List (PoolKey × Finset CryptoHash) → List (PoolKey × Finset CryptoHash)
  | [] => [(k, {h})]
  | (k', hashes) :: rest =>
    if k' = k then (k', insert h hashes) :: rest else (k', hashes) :: addRemovedHash k h rest

/-- The first loop of `remove_transactions`: forgets the hashes that are in
the pool and collects them per pool key. -/
def groupRemoved (self : TransactionPool) (grouped : List (PoolKey × Finset CryptoHash)) :
    List SignedTransaction → TransactionPool × List (PoolKey × Finset CryptoHash)
  | [] => (self, grouped)
  | tx :: rest =>
    if tx.getHash ∈ self.uniqueTransactions then
      groupRemoved { self with uniqueTransactions := self.uniqueTransactions.erase tx.getHash }
        (addRemovedHash (self.txKey hash tx) tx.getHash grouped) rest
    else groupRemoved self grouped rest

/-- The second loop of `remove_transactions`, over the collected groups. -/
def retainGroups (self : TransactionPool) :
    List (PoolKey × Finset CryptoHash) → Option TransactionPool
  | [] => some self
  | (k, hashes) :: rest =>
    match self.transactions.get? k with
    | none => retainGroups self rest
    | some group =>
      match retainGroup hashes self.totalTransactionSize group with
      | none => none
      | some (total, kept) =>
        retainGroups
          { self with
            totalTransactionSize := total
            transactions :=
              if kept.isEmpty then self.transactions.erase k else self.transactions.insert k kept }
          rest

/-- `TransactionPool::remove_transactions`.  `HashMap` iteration order is
unspecified; the order chosen here changes neither the result nor whether a
subtraction fails, since the sizes subtracted are the same. -/
def removeTransactions (self : TransactionPool) (transactions : List SignedTransaction) :
    Option TransactionPool :=
  let (self, grouped) := self.groupRemoved hash [] transactions
  self.retainGroups grouped

/-- The transactions stored in the groups, in key order. -/
def storedTransactions (self : TransactionPool) : List SignedTransaction :=
  self.transactions.entries.flatMap (·.2)

/-- `TransactionPool::len`. -/
def len (self : TransactionPool) : Nat := self.uniqueTransactions.card

end TransactionPool

structure TransactionGroup where
  key : PoolKey
  transactions : List SignedTransaction
  removedTransactionHashes : List CryptoHash

/-- `TransactionGroup::next`: pops the last transaction, the one with the
least nonce, and records its hash. -/
def TransactionGroup.next (self : TransactionGroup) : Option SignedTransaction × TransactionGroup :=
  match self.transactions.getLast? with
  | some tx =>
    (some tx,
      { self with
        transactions := self.transactions.dropLast
        removedTransactionHashes := self.removedTransactionHashes ++ [tx.getHash] })
  | none => (none, self)

structure PoolIteratorWrapper where
  pool : TransactionPool
  sortedGroups : List TransactionGroup

namespace PoolIteratorWrapper

def new (pool : TransactionPool) : PoolIteratorWrapper := ⟨pool, []⟩

/-- `transactions.sort_by_key(|st| Reverse(st.transaction.nonce))`, a stable
sort into non-increasing nonce order. -/
def sortByNonceDesc (transactions : List SignedTransaction) : List SignedTransaction :=
  transactions.mergeSort fun a b => b.transaction.nonce ≤ a.transaction.nonce

/-- The `while let` loop of `next` once the pool has no group left: drops
the empty groups at the front, forgetting the hashes of what was pulled from
them, and moves the first non-empty group to the back. -/
def popSortedGroups (pool : TransactionPool) :
    List TransactionGroup → Bool × PoolIteratorWrapper
  | [] => (false, ⟨pool, []⟩)
  | sortedGroup :: rest =>
    if sortedGroup.transactions.isEmpty then
      popSortedGroups (pool.forgetHashes sortedGroup.removedTransactionHashes) rest
    else (true, ⟨pool, rest ++ [sortedGroup]⟩)

/-- `PoolIterator::next` of `PoolIteratorWrapper`.  While the pool has
groups, it takes the one with the least key after `last_used_key` (or the
least key), sorts it and pushes it to the back; then it cycles through
`sorted_groups`.  `true` means a group was returned: the back one. -/
def next (self : PoolIteratorWrapper) : Option (Bool × PoolIteratorWrapper) :=
  if !self.pool.transactions.isEmpty then
    let key? := (self.pool.transactions.firstKeyAfter? self.pool.lastUsedKey).orElse
      fun _ => self.pool.transactions.firstKey?
    match key? with
    | none => none
    | some key =>
      match self.pool.transactions.get? key with
      | none => none
      | some transactions =>
        match (UInt64.checkedSum (transactions.map SignedTransaction.getSize)).bind
            self.pool.totalTransactionSize.checkedSub with
        | none => none
        | some totalTransactionSize =>
          let pool := { self.pool with
            lastUsedKey := key
            transactions := self.pool.transactions.erase key
            totalTransactionSize }
          some (true,
            ⟨pool, self.sortedGroups ++
              [{ key, transactions := sortByNonceDesc transactions, removedTransactionHashes := [] }]⟩)
  else some (popSortedGroups self.pool self.sortedGroups)

/-- `TransactionGroup::next` through the reference that `next` returned. -/
def groupNext (self : PoolIteratorWrapper) : Option SignedTransaction × PoolIteratorWrapper :=
  match self.sortedGroups.getLast? with
  | none => (none, self)
  | some group =>
    let (tx, group) := group.next
    (tx, { self with sortedGroups := self.sortedGroups.dropLast ++ [group] })

theorem popSortedGroups_pool_transactions (pool : TransactionPool) (groups : List TransactionGroup) :
    (popSortedGroups pool groups).2.pool.transactions = pool.transactions := by
  induction groups generalizing pool with
  | nil => rfl
  | cons g rest ih =>
      simp only [popSortedGroups]
      split
      · exact ih _
      · rfl

theorem popSortedGroups_false {pool : TransactionPool} {groups : List TransactionGroup}
    {it : PoolIteratorWrapper} (h : popSortedGroups pool groups = (false, it)) :
    it.sortedGroups = [] ∧ ∀ g ∈ groups, g.transactions = [] := by
  induction groups generalizing pool with
  | nil =>
      cases h
      exact ⟨rfl, by simp⟩
  | cons g rest ih =>
      simp only [popSortedGroups] at h
      split at h
      · next hempty =>
          obtain ⟨hit, hrest⟩ := ih h
          refine ⟨hit, ?_⟩
          intro g' hg'
          rcases List.mem_cons.mp hg' with rfl | hg'
          · exact List.isEmpty_iff.mp hempty
          · exact hrest g' hg'
      · cases h

/-- Otherwise the empty groups in front are dropped and the first non-empty
one moves to the back. -/
theorem popSortedGroups_true {pool : TransactionPool} {groups : List TransactionGroup}
    {it : PoolIteratorWrapper} (h : popSortedGroups pool groups = (true, it)) :
    ∃ dropped g rest, groups = dropped ++ g :: rest ∧ (∀ d ∈ dropped, d.transactions = []) ∧
      g.transactions ≠ [] ∧ it.sortedGroups = rest ++ [g] := by
  induction groups generalizing pool with
  | nil => cases h
  | cons g rest ih =>
      simp only [popSortedGroups] at h
      split at h
      · next hempty =>
          obtain ⟨dropped, g', rest', hgroups, hdropped, hg', hit⟩ := ih h
          refine ⟨g :: dropped, g', rest', by rw [hgroups]; rfl, ?_, hg', hit⟩
          intro d hd
          rcases List.mem_cons.mp hd with rfl | hd
          · exact List.isEmpty_iff.mp hempty
          · exact hdropped d hd
      · next hne =>
          cases h
          exact ⟨[], g, rest, rfl, by simp, fun h => hne (List.isEmpty_iff.mpr h), rfl⟩

/-- What one call of `next` can do: pull a group out of the pool, or, once
the pool is empty, cycle through the queue. -/
theorem next_cases {it it' : PoolIteratorWrapper} {b : Bool} (h : it.next = some (b, it')) :
    (∃ key transactions, it.pool.transactions.get? key = some transactions ∧ b = true ∧
      it'.pool.transactions = it.pool.transactions.erase key ∧
      it'.sortedGroups = it.sortedGroups ++
        [{ key, transactions := sortByNonceDesc transactions, removedTransactionHashes := [] }]) ∨
    (it.pool.transactions.isEmpty = true ∧ popSortedGroups it.pool it.sortedGroups = (b, it')) := by
  unfold next at h
  split at h
  · left
    dsimp only at h
    split at h
    · cases h
    · next key _ =>
        split at h
        · cases h
        · next transactions htxs =>
            split at h
            · cases h
            · cases h
              exact ⟨key, transactions, htxs, rfl, rfl, rfl⟩
  · next hempty =>
      right
      exact ⟨by simpa using hempty, Option.some.inj h⟩

/-- `TransactionGroup::next` through the back reference pops the back group's
last transaction. -/
theorem groupNext_some {it it' : PoolIteratorWrapper} {tx : SignedTransaction}
    (h : it.groupNext = (some tx, it')) :
    ∃ front g, it.sortedGroups = front ++ [g] ∧ g.transactions = g.transactions.dropLast ++ [tx] ∧
      it'.pool = it.pool ∧
      it'.sortedGroups = front ++
        [{ g with
          transactions := g.transactions.dropLast
          removedTransactionHashes := g.removedTransactionHashes ++ [tx.getHash] }] := by
  unfold groupNext at h
  split at h
  · cases h
  · next g hlast =>
      simp only [TransactionGroup.next] at h
      split at h
      · next tx' htx =>
          cases h
          refine ⟨it.sortedGroups.dropLast, g, ?_, ?_, rfl, rfl⟩
          · exact (List.dropLast_append_getLast? g hlast).symm
          · exact (List.dropLast_append_getLast? tx htx).symm
      · cases h

theorem groupNext_none {it it' : PoolIteratorWrapper} (h : it.groupNext = (none, it')) :
    it' = it ∧ ∀ g ∈ it.sortedGroups.getLast?, g.transactions = [] := by
  unfold groupNext at h
  split at h
  · next hlast =>
      cases h
      simp [hlast]
  · next g hlast =>
      simp only [TransactionGroup.next] at h
      split at h
      · cases h
      · next htx =>
          have hit : it' = it := by
            cases h
            simp [List.dropLast_append_getLast? g hlast]
          refine ⟨hit, ?_⟩
          intro g' hg'
          rw [hlast, Option.mem_some_iff] at hg'
          subst hg'
          exact List.getLast?_eq_none_iff.mp htx

/-- `Drop for PoolIteratorWrapper`: forgets the hashes of the pulled
transactions and puts every non-empty group back into the pool. -/
def drop (self : PoolIteratorWrapper) : Option TransactionPool :=
  self.sortedGroups.foldlM
    (fun pool group =>
      let pool := pool.forgetHashes group.removedTransactionHashes
      if !group.transactions.isEmpty then
        match (UInt64.checkedSum (group.transactions.map SignedTransaction.getSize)).bind
            pool.totalTransactionSize.checkedAdd with
        | none => none
        | some totalTransactionSize =>
          some { pool with
            totalTransactionSize
            transactions := pool.transactions.insert group.key group.transactions }
      else some pool)
    self.pool

end PoolIteratorWrapper

end Pool
end Nearcore
