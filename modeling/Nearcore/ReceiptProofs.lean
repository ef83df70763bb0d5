import Nearcore.Merkle
import Nearcore.ShardLayout
import Nearcore.ListFacts

/-!
# Outgoing receipt proofs

`Chain::build_receipts_hashes` (`chain/chain/src/chain.rs`) sorts the outgoing receipts of a
chunk by the shard of their receiver, into one list per shard in the order they come, and hashes
the Borsh encoding of each `(shard_id, receipts)`; a layout of one shard takes a shortcut and
hashes `ReceiptList(0, receipts)` at once.  The chunk's `outgoing_receipts_root` is the
`merklize` root of these hashes.  `make_outgoing_receipts_proofs` (`chain/chunks/src/logic.rs`)
pairs the proof of each shard with that shard's receipts as `group_receipts_by_shard` groups
them, and the `ShardsManager` that receives a partial chunk checks every such proof against the
root (`chain/chunks/src/lib.rs`).

Borsh encodes a tuple struct as its fields in order, so `(i, rs)` and `ReceiptList(i, rs)` are
the same bytes; that encoding is a parameter, and so are the hash and the receiver of a
receipt.  The main result (`makeOutgoingReceiptsProofs_spec`) is that each shard's hash is that
of its own receipts, and that the proofs come one per shard, in order, with the shard's
receipts, which partition all of them, and pass the receiver's check.
-/

namespace Nearcore

open Merkle

/-- `ReceiptList(shard_id, receipts)`. -/
structure ReceiptList (R : Type) where
  shardId : ℕ
  receipts : List R

/-- The fields of a `ShardChunkHeader` that the proofs read. -/
structure ShardChunkHeader where
  shardId : ℕ
  outgoingReceiptsRoot : CryptoHash

structure ShardProof where
  fromShardId : ℕ
  toShardId : ℕ
  proof : MerklePath

/-- `ReceiptProof(receipts, shard_proof)`. -/
structure ReceiptProof (R : Type) where
  receipts : List R
  shardProof : ShardProof

namespace Chain

section Model

variable {R : Type} (hash : List UInt8 → CryptoHash) (receiverId : R → AccountId)

/-- The body of the loop of `group_receipts_by_shard`; `none` where `account_id_to_shard_id`
panics. -/
def groupReceipt (shardLayout : ShardLayout) (result : BTreeMap ℕ (List R)) (receipt : R) :
    Option (BTreeMap ℕ (List R)) := do
  let shardId ← accountIdToShardId hash (receiverId receipt) shardLayout
  -- `result.entry(shard_id).or_insert_with(Vec::new).push(receipt)`
  return result.insert shardId ((result.get? shardId).getD [] ++ [receipt])

/-- `Chain::group_receipts_by_shard`.  The `HashMap` is only read by key, so an ordered map
stands for it. -/
def groupReceiptsByShard (receipts : List R) (shardLayout : ShardLayout) :
    Option (BTreeMap ℕ (List R)) :=
  receipts.foldlM (groupReceipt hash receiverId shardLayout) BTreeMap.empty

/-- `account_id_to_shard_id_map` in `build_receipts_hashes`: the shard of an account from the
cache, or computed and stored on a miss. -/
def cachedShardId (shardLayout : ShardLayout) (cache : BTreeMap AccountId ℕ)
    (accountId : AccountId) : Option (ℕ × BTreeMap AccountId ℕ) :=
  match cache.get? accountId with
  | some id => some (id, cache)
  | none => do
      let id ← accountIdToShardId hash accountId shardLayout
      return (id, cache.insert accountId id)

/-- One turn of the loop of `build_receipts_hashes`: the receipt onto the list of its shard;
`none` where `account_id_to_shard_id` or the index `shard_receipts[shard_id]` panics. -/
def pushReceipt (shardLayout : ShardLayout)
    (state : BTreeMap AccountId ℕ × List (ℕ × List R)) (receipt : R) :
    Option (BTreeMap AccountId ℕ × List (ℕ × List R)) := do
  let (shardId, cache) ← cachedShardId hash shardLayout state.1 (receiverId receipt)
  if shardId < state.2.length then
    return (cache, state.2.modify shardId fun (i, rs) => (i, rs ++ [receipt]))
  else none

variable (toBorsh : ReceiptList R → List UInt8)

/-- `Chain::build_receipts_hashes`; `none` where it panics.  `(i, rs).try_to_vec()` is the
encoding of `ReceiptList(i, rs)`. -/
def buildReceiptsHashes (receipts : List R) (shardLayout : ShardLayout) :
    Option (List CryptoHash) :=
  if shardLayout.numShards = 1 then some [hashBorsh hash toBorsh ⟨0, receipts⟩]
  else do
    let (_, shardReceipts) ← receipts.foldlM (pushReceipt hash receiverId shardLayout)
      (BTreeMap.empty, (List.range shardLayout.numShards).map fun i => (i, []))
    return shardReceipts.map fun (i, rs) => hash (toBorsh ⟨i, rs⟩)

end Model

section Proofs

variable {R : Type} (hash : List UInt8 → CryptoHash) (receiverId : R → AccountId)

/-- The receipts whose receiver lies in shard `s`, in their order. -/
def receiptsOfShard (shardLayout : ShardLayout) (s : ℕ) (receipts : List R) : List R :=
  receipts.filter fun receipt => accountIdToShardId hash (receiverId receipt) shardLayout == some s

theorem receiptsOfShard_append_singleton {shardLayout : ShardLayout} {receipt : R} {s : ℕ}
    (hs : accountIdToShardId hash (receiverId receipt) shardLayout = some s) (i : ℕ)
    (pre : List R) :
    receiptsOfShard hash receiverId shardLayout i (pre ++ [receipt]) =
      receiptsOfShard hash receiverId shardLayout i pre ++ if s = i then [receipt] else [] := by
  by_cases hsi : s = i
  · simp [receiptsOfShard, hs, hsi]
  · simp [receiptsOfShard, hs, hsi]

theorem receiptsOfShard_of_numShards_eq_one {shardLayout : ShardLayout}
    (hone : shardLayout.numShards = 1) (receipts : List R) :
    receiptsOfShard hash receiverId shardLayout 0 receipts = receipts := by
  apply List.filter_eq_self.mpr
  intro receipt _
  obtain ⟨s, hs, hlt⟩ := accountIdToShardId_lt hash (receiverId receipt) (hone ▸ Nat.one_pos)
  have hzero : s = 0 := by omega
  simp [hs, hzero]

/-- What the cache of `build_receipts_hashes` keeps: every account it holds with its shard. -/
def CacheSound (shardLayout : ShardLayout) (cache : BTreeMap AccountId ℕ) : Prop :=
  ∀ accountId id, cache.get? accountId = some id →
    accountIdToShardId hash accountId shardLayout = some id

/-- A sound cache gives the shard `account_id_to_shard_id` would, and stays sound. -/
theorem cachedShardId_eq {shardLayout : ShardLayout} {cache : BTreeMap AccountId ℕ}
    (hsound : CacheSound hash shardLayout cache) {accountId : AccountId} {id : ℕ}
    (hid : accountIdToShardId hash accountId shardLayout = some id) :
    ∃ cache', cachedShardId hash shardLayout cache accountId = some (id, cache') ∧
      CacheSound hash shardLayout cache' := by
  unfold cachedShardId
  cases hget : cache.get? accountId with
  | some id' =>
      have hcached := hsound accountId id' hget
      rw [hid, Option.some.injEq] at hcached
      subst hcached
      exact ⟨cache, rfl, hsound⟩
  | none =>
      refine ⟨cache.insert accountId id, by simp [hid], ?_⟩
      intro a i hai
      rw [BTreeMap.get?_insert] at hai
      split_ifs at hai with ha
      · subst ha
        rw [← Option.some.inj hai]
        exact hid
      · exact hsound a i hai

/-- The loop of `build_receipts_hashes` keeps, for each shard, the receipts read so far that
lie in it, in their order. -/
theorem foldlM_pushReceipt {shardLayout : ShardLayout} (hpos : 0 < shardLayout.numShards)
    (receipts pre : List R) (cache : BTreeMap AccountId ℕ)
    (hsound : CacheSound hash shardLayout cache) :
    ∃ cache', receipts.foldlM (pushReceipt hash receiverId shardLayout)
        (cache, (List.range shardLayout.numShards).map fun i =>
          (i, receiptsOfShard hash receiverId shardLayout i pre)) =
      some (cache', (List.range shardLayout.numShards).map fun i =>
        (i, receiptsOfShard hash receiverId shardLayout i (pre ++ receipts))) := by
  induction receipts generalizing pre cache with
  | nil => exact ⟨cache, by simp⟩
  | cons receipt receipts ih =>
      obtain ⟨s, hs, hlt⟩ := accountIdToShardId_lt hash (receiverId receipt) hpos
      obtain ⟨cache', hcached, hsound'⟩ := cachedShardId_eq hash hsound hs
      have hmodify : ((List.range shardLayout.numShards).map fun i =>
            (i, receiptsOfShard hash receiverId shardLayout i pre)).modify s
            (fun (i, rs) => (i, rs ++ [receipt])) =
          (List.range shardLayout.numShards).map fun i =>
            (i, receiptsOfShard hash receiverId shardLayout i (pre ++ [receipt])) := by
        apply List.ext_getElem (by simp)
        intro i _ _
        simp only [List.getElem_modify, List.getElem_map, List.getElem_range]
        rw [receiptsOfShard_append_singleton hash receiverId hs]
        by_cases hsi : s = i
        · simp [hsi]
        · simp [hsi]
      obtain ⟨cache'', hrest⟩ := ih (pre ++ [receipt]) cache' hsound'
      refine ⟨cache'', ?_⟩
      rw [List.foldlM_cons]
      simp only [pushReceipt, hcached, List.length_map, List.length_range, if_pos hlt, hmodify,
        Option.bind_eq_bind, Option.bind_some]
      simpa using hrest

/-- With a shard, `build_receipts_hashes` does not panic, and the hash of each shard is that of
its receipts. -/
theorem buildReceiptsHashes_eq (toBorsh : ReceiptList R → List UInt8) (receipts : List R)
    {shardLayout : ShardLayout} (hpos : 0 < shardLayout.numShards) :
    buildReceiptsHashes hash receiverId toBorsh receipts shardLayout =
      some ((List.range shardLayout.numShards).map fun s =>
        hashBorsh hash toBorsh ⟨s, receiptsOfShard hash receiverId shardLayout s receipts⟩) := by
  unfold buildReceiptsHashes
  split_ifs with hone
  · -- the shortcut of a single shard
    rw [hone]
    simp [receiptsOfShard_of_numShards_eq_one hash receiverId hone]
  · have hempty : ∀ i, receiptsOfShard hash receiverId shardLayout i ([] : List R) = [] :=
      fun _ => rfl
    obtain ⟨cache, hfold⟩ := foldlM_pushReceipt hash receiverId hpos receipts [] BTreeMap.empty
      fun _ _ h => by simp at h
    simp only [hempty, List.nil_append] at hfold
    simp only [hfold, Option.bind_eq_bind, Option.bind_some, List.map_map]
    rfl

/-- The loop of `group_receipts_by_shard` keeps, for each shard, the receipts read so far that
lie in it, in their order. -/
theorem foldlM_groupReceipt {shardLayout : ShardLayout} (hpos : 0 < shardLayout.numShards)
    (receipts pre : List R) (result : BTreeMap ℕ (List R))
    (hresult : ∀ s, (result.get? s).getD [] = receiptsOfShard hash receiverId shardLayout s pre) :
    ∃ result', receipts.foldlM (groupReceipt hash receiverId shardLayout) result = some result' ∧
      ∀ s, (result'.get? s).getD [] =
        receiptsOfShard hash receiverId shardLayout s (pre ++ receipts) := by
  induction receipts generalizing pre result with
  | nil => exact ⟨result, rfl, by simpa using hresult⟩
  | cons receipt receipts ih =>
      obtain ⟨s, hs, -⟩ := accountIdToShardId_lt hash (receiverId receipt) hpos
      have hstep : groupReceipt hash receiverId shardLayout result receipt =
          some (result.insert s ((result.get? s).getD [] ++ [receipt])) := by
        simp [groupReceipt, hs]
      have hresult' : ∀ i, ((result.insert s ((result.get? s).getD [] ++ [receipt])).get? i).getD [] =
          receiptsOfShard hash receiverId shardLayout i (pre ++ [receipt]) := by
        intro i
        rw [BTreeMap.get?_insert, receiptsOfShard_append_singleton hash receiverId hs, ← hresult]
        by_cases hsi : s = i
        · subst hsi
          simp
        · simp [hsi]
      obtain ⟨result', hfold, hget⟩ := ih (pre ++ [receipt]) _ hresult'
      refine ⟨result', ?_, by simpa using hget⟩
      rw [List.foldlM_cons, hstep, Option.bind_eq_bind, Option.bind_some]
      exact hfold

/-- With a shard, `group_receipts_by_shard` does not panic and gives each shard its receipts. -/
theorem groupReceiptsByShard_get? (receipts : List R) {shardLayout : ShardLayout}
    (hpos : 0 < shardLayout.numShards) :
    ∃ receiptsByShard, groupReceiptsByShard hash receiverId receipts shardLayout =
        some receiptsByShard ∧
      ∀ s, (receiptsByShard.get? s).getD [] = receiptsOfShard hash receiverId shardLayout s receipts := by
  have h := foldlM_groupReceipt hash receiverId hpos receipts [] BTreeMap.empty fun _ => rfl
  rw [List.nil_append] at h
  exact h

end Proofs

end Chain

namespace Chunks

section Model

variable {R : Type} (hash : List UInt8 → CryptoHash) (receiverId : R → AccountId)
  (toBorsh : ReceiptList R → List UInt8)

/-- The items of the iterator `make_outgoing_receipts_proofs` returns: the proof of shard
`proof_shard_id` with the receipts `remove`d from the grouped map for it, none if it has none. -/
def receiptProofs (shardId : ℕ) :
    BTreeMap ℕ (List R) → List (MerklePath × ℕ) → List (ReceiptProof R)
  | _, [] => []
  | receiptsByShard, (proof, proofShardId) :: rest =>
      ⟨(receiptsByShard.get? proofShardId).getD [], ⟨shardId, proofShardId, proof⟩⟩ ::
        receiptProofs shardId (receiptsByShard.erase proofShardId) rest

/-- `make_outgoing_receipts_proofs`, for the shard layout the epoch manager gives for the
chunk's previous block; `none` where it panics, on the `assert_eq!` of the root as well. -/
def makeOutgoingReceiptsProofs (chunkHeader : ShardChunkHeader) (outgoingReceipts : List R)
    (shardLayout : ShardLayout) : Option (List (ReceiptProof R)) := do
  let shardId := chunkHeader.shardId
  let hashes ← Chain.buildReceiptsHashes hash receiverId toBorsh outgoingReceipts shardLayout
  let (root, proofs) := merklize hash CryptoHash.toBorsh hashes
  if chunkHeader.outgoingReceiptsRoot ≠ root then none
  else do
    let receiptsByShard ← Chain.groupReceiptsByShard hash receiverId outgoingReceipts shardLayout
    return receiptProofs shardId receiptsByShard proofs.zipIdx

/-- The error of the receipts check. -/
inductive ReceiptsError where
  /-- `Error::ChainError(InvalidReceiptsProof)`. -/
  | invalidReceiptsProof
  deriving DecidableEq, Repr

/-- Step 1.e of the `ShardsManager` validating a partial encoded chunk: every receipt proof must
lead from the hash of `ReceiptList(to_shard_id, receipts)` to the `outgoing_receipts_root`. -/
def checkReceiptProofs (outgoingReceiptsRoot : CryptoHash) (receipts : List (ReceiptProof R)) :
    Except ReceiptsError Unit :=
  receipts.forM fun proof =>
    let receiptHash := hashBorsh hash toBorsh ⟨proof.shardProof.toShardId, proof.receipts⟩
    if verifyPath hash CryptoHash.toBorsh outgoingReceiptsRoot proof.shardProof.proof receiptHash
    then .ok ()
    else .error .invalidReceiptsProof

end Model

section Proofs

variable {R : Type} (hash : List UInt8 → CryptoHash) (receiverId : R → AccountId)
  (toBorsh : ReceiptList R → List UInt8)

theorem receiptProofs_eq (shardId : ℕ) (ps : List (MerklePath × ℕ))
    (hnodup : (ps.map Prod.snd).Nodup) (receiptsByShard : BTreeMap ℕ (List R)) :
    receiptProofs shardId receiptsByShard ps =
      ps.map fun p => ⟨(receiptsByShard.get? p.2).getD [], ⟨shardId, p.2, p.1⟩⟩ := by
  induction ps generalizing receiptsByShard with
  | nil => rfl
  | cons p ps ih =>
      obtain ⟨proof, k⟩ := p
      rw [List.map_cons] at hnodup
      obtain ⟨hk, hnodup⟩ := List.nodup_cons.mp hnodup
      rw [receiptProofs, ih hnodup, List.map_cons]
      congr 1
      apply List.map_congr_left
      intro q hq
      have hne : k ≠ q.2 := fun h => hk (by rw [h]; exact List.mem_map.mpr ⟨q, hq, rfl⟩)
      rw [BTreeMap.get?_erase, if_neg hne]

/-- Past the root's `assert_eq!`, the proofs come one per shard, in order, each with the
receipts of its shard. -/
theorem makeOutgoingReceiptsProofs_eq {chunkHeader : ShardChunkHeader} {receipts : List R}
    {shardLayout : ShardLayout} (hpos : 0 < shardLayout.numShards) {hashes : List CryptoHash}
    (hbuild : Chain.buildReceiptsHashes hash receiverId toBorsh receipts shardLayout = some hashes)
    (hroot : chunkHeader.outgoingReceiptsRoot = (merklize hash CryptoHash.toBorsh hashes).1) :
    makeOutgoingReceiptsProofs hash receiverId toBorsh chunkHeader receipts shardLayout =
      some ((merklize hash CryptoHash.toBorsh hashes).2.zipIdx.map fun p =>
        ⟨Chain.receiptsOfShard hash receiverId shardLayout p.2 receipts,
          ⟨chunkHeader.shardId, p.2, p.1⟩⟩) := by
  obtain ⟨receiptsByShard, hgroup, hget⟩ :=
    Chain.groupReceiptsByShard_get? hash receiverId receipts hpos
  have hnodup : ((merklize hash CryptoHash.toBorsh hashes).2.zipIdx.map Prod.snd).Nodup := by
    simp [List.nodup_range']
  generalize hm : merklize hash CryptoHash.toBorsh hashes = merkle at hroot hnodup ⊢
  obtain ⟨root, proofs⟩ := merkle
  simp only [makeOutgoingReceiptsProofs, hbuild, hm, hroot, hgroup, ne_eq, not_true_eq_false,
    if_false, Option.bind_eq_bind, Option.bind_some]
  rw [receiptProofs_eq _ _ hnodup]
  congr 1
  apply List.map_congr_left
  intro p _
  rw [hget]

theorem checkReceiptProofs_eq_ok {outgoingReceiptsRoot : CryptoHash}
    {receipts : List (ReceiptProof R)}
    (h : ∀ proof ∈ receipts, verifyPath hash CryptoHash.toBorsh outgoingReceiptsRoot
      proof.shardProof.proof
      (hashBorsh hash toBorsh ⟨proof.shardProof.toShardId, proof.receipts⟩) = true) :
    checkReceiptProofs hash toBorsh outgoingReceiptsRoot receipts = .ok () := by
  induction receipts with
  | nil => rfl
  | cons proof receipts ih =>
      have hhead := h proof (.head _)
      have hrest := ih fun p hp => h p (.tail _ hp)
      unfold checkReceiptProofs at hrest ⊢
      rw [List.forM, if_pos hhead]
      exact hrest

/-- Outgoing receipt proofs are complete and verifiable.  In a layout with a shard,
`build_receipts_hashes` gives one hash per shard, that of `ReceiptList(s, R_s)` for the
receipts `R_s` of shard `s` in their order; and for a chunk whose `outgoing_receipts_root` is
the root of these hashes, `make_outgoing_receipts_proofs` gives one proof per shard, in order,
from the chunk's shard to shard `s` with `R_s`, the `R_s` partition the receipts, each proof
leads from the hash of its `ReceiptList` to the root, and the receiver's check passes. -/
theorem makeOutgoingReceiptsProofs_spec (receipts : List R) (shardLayout : ShardLayout)
    (hpos : 0 < shardLayout.numShards) :
    ∃ hashes, Chain.buildReceiptsHashes hash receiverId toBorsh receipts shardLayout = some hashes ∧
      hashes.length = shardLayout.numShards ∧
      (∀ s (hs : s < hashes.length), hashes[s] =
        hashBorsh hash toBorsh ⟨s, Chain.receiptsOfShard hash receiverId shardLayout s receipts⟩) ∧
      ∀ chunkHeader : ShardChunkHeader,
        chunkHeader.outgoingReceiptsRoot = (merklize hash CryptoHash.toBorsh hashes).1 →
        ∃ proofs, makeOutgoingReceiptsProofs hash receiverId toBorsh chunkHeader receipts
            shardLayout = some proofs ∧
          proofs.length = shardLayout.numShards ∧
          (∀ s (hs : s < proofs.length),
            proofs[s].receipts = Chain.receiptsOfShard hash receiverId shardLayout s receipts ∧
            proofs[s].shardProof.fromShardId = chunkHeader.shardId ∧
            proofs[s].shardProof.toShardId = s ∧
            verifyPath hash CryptoHash.toBorsh chunkHeader.outgoingReceiptsRoot
              proofs[s].shardProof.proof (hashBorsh hash toBorsh ⟨s, proofs[s].receipts⟩) = true) ∧
          (proofs.flatMap (·.receipts)).Perm receipts ∧
          checkReceiptProofs hash toBorsh chunkHeader.outgoingReceiptsRoot proofs = .ok () := by
  obtain ⟨hashes, hhashes⟩ : ∃ hashes, (List.range shardLayout.numShards).map (fun s =>
      hashBorsh hash toBorsh ⟨s, Chain.receiptsOfShard hash receiverId shardLayout s receipts⟩) =
      hashes := ⟨_, rfl⟩
  have hbuild : Chain.buildReceiptsHashes hash receiverId toBorsh receipts shardLayout =
      some hashes := hhashes ▸ Chain.buildReceiptsHashes_eq hash receiverId toBorsh receipts hpos
  have hlen : hashes.length = shardLayout.numShards := by simp [← hhashes]
  have hget : ∀ s (hs : s < hashes.length), hashes[s] =
      hashBorsh hash toBorsh ⟨s, Chain.receiptsOfShard hash receiverId shardLayout s receipts⟩ := by
    intro s hs
    simp [← hhashes]
  refine ⟨hashes, hbuild, hlen, hget, ?_⟩
  intro chunkHeader hroot
  obtain ⟨proofs, hproofs⟩ : ∃ proofs, (merklize hash CryptoHash.toBorsh hashes).2.zipIdx.map
      (fun p => (⟨Chain.receiptsOfShard hash receiverId shardLayout p.2 receipts,
        ⟨chunkHeader.shardId, p.2, p.1⟩⟩ : ReceiptProof R)) = proofs := ⟨_, rfl⟩
  have hmake := makeOutgoingReceiptsProofs_eq hash receiverId toBorsh hpos hbuild hroot
  rw [hproofs] at hmake
  have hpaths : (merklize hash CryptoHash.toBorsh hashes).2.length = shardLayout.numShards :=
    (length_merklize hash CryptoHash.toBorsh hashes).trans hlen
  have hlenProofs : proofs.length = shardLayout.numShards := by simp [← hproofs, hpaths]
  have hitem : ∀ s (hs : s < proofs.length),
      proofs[s].receipts = Chain.receiptsOfShard hash receiverId shardLayout s receipts ∧
      proofs[s].shardProof.fromShardId = chunkHeader.shardId ∧
      proofs[s].shardProof.toShardId = s ∧
      verifyPath hash CryptoHash.toBorsh chunkHeader.outgoingReceiptsRoot
        proofs[s].shardProof.proof (hashBorsh hash toBorsh ⟨s, proofs[s].receipts⟩) = true := by
    intro s hs
    have hsPaths : s < (merklize hash CryptoHash.toBorsh hashes).2.length := by omega
    have hsHashes : s < hashes.length := by omega
    have hproof : proofs[s] = ⟨Chain.receiptsOfShard hash receiverId shardLayout s receipts,
        ⟨chunkHeader.shardId, s, (merklize hash CryptoHash.toBorsh hashes).2[s]⟩⟩ := by
      subst hproofs
      simp [List.getElem_zipIdx]
    have hverify := verifyPath_merklize hash CryptoHash.toBorsh hashes hsHashes
    rw [getElem!_pos _ s hsPaths, hget s hsHashes, ← hroot] at hverify
    rw [hproof]
    exact ⟨rfl, rfl, rfl, hverify⟩
  refine ⟨proofs, hmake, hlenProofs, hitem, ?_, ?_⟩
  · -- the proofs' receipts are those of each shard in turn
    have hflat : proofs.flatMap (·.receipts) = (List.range shardLayout.numShards).flatMap
        fun s => Chain.receiptsOfShard hash receiverId shardLayout s receipts := by
      have hsnd : (merklize hash CryptoHash.toBorsh hashes).2.zipIdx.map Prod.snd =
          List.range shardLayout.numShards := by
        simp [List.range_eq_range', hpaths]
      rw [← hproofs, List.flatMap_map, ← hsnd, List.flatMap_map]
    rw [hflat]
    apply List.flatMap_range_filter_perm
    intro receipt _
    obtain ⟨s, hs, hlt⟩ := accountIdToShardId_lt hash (receiverId receipt) hpos
    exact ⟨s, hlt, hs⟩
  · apply checkReceiptProofs_eq_ok
    intro proof hproof
    obtain ⟨s, hs, rfl⟩ := List.getElem_of_mem hproof
    obtain ⟨-, -, hto, hverify⟩ := hitem s hs
    rw [hto]
    exact hverify

/-- Two receipts in a layout of two shards, with a constant hash and encoding. -/
theorem makeOutgoingReceiptsProofs_spec_twoShards :
    0 < (ShardLayout.v0 2 0).numShards ∧
    ∃ hashes, Chain.buildReceiptsHashes (fun _ => CryptoHash.default) id
        (fun _ : ReceiptList AccountId => []) ["alice.near", "bob.near"] (ShardLayout.v0 2 0) =
          some hashes ∧
      hashes.length = (ShardLayout.v0 2 0).numShards ∧
      (∀ s (hs : s < hashes.length), hashes[s] =
        hashBorsh (fun _ => CryptoHash.default) (fun _ : ReceiptList AccountId => [])
          ⟨s, Chain.receiptsOfShard (fun _ => CryptoHash.default) id (ShardLayout.v0 2 0) s
            ["alice.near", "bob.near"]⟩) ∧
      ∀ chunkHeader : ShardChunkHeader,
        chunkHeader.outgoingReceiptsRoot =
          (merklize (fun _ => CryptoHash.default) CryptoHash.toBorsh hashes).1 →
        ∃ proofs, makeOutgoingReceiptsProofs (fun _ => CryptoHash.default) id
            (fun _ : ReceiptList AccountId => []) chunkHeader ["alice.near", "bob.near"]
            (ShardLayout.v0 2 0) = some proofs ∧
          proofs.length = (ShardLayout.v0 2 0).numShards ∧
          (∀ s (hs : s < proofs.length),
            proofs[s].receipts = Chain.receiptsOfShard (fun _ => CryptoHash.default) id
              (ShardLayout.v0 2 0) s ["alice.near", "bob.near"] ∧
            proofs[s].shardProof.fromShardId = chunkHeader.shardId ∧
            proofs[s].shardProof.toShardId = s ∧
            verifyPath (fun _ => CryptoHash.default) CryptoHash.toBorsh
              chunkHeader.outgoingReceiptsRoot proofs[s].shardProof.proof
              (hashBorsh (fun _ => CryptoHash.default) (fun _ : ReceiptList AccountId => [])
                ⟨s, proofs[s].receipts⟩) = true) ∧
          (proofs.flatMap (·.receipts)).Perm ["alice.near", "bob.near"] ∧
          checkReceiptProofs (fun _ => CryptoHash.default) (fun _ : ReceiptList AccountId => [])
            chunkHeader.outgoingReceiptsRoot proofs = .ok () :=
  ⟨by decide, makeOutgoingReceiptsProofs_spec _ _ _ _ _ (by decide)⟩

end Proofs

end Chunks

end Nearcore
