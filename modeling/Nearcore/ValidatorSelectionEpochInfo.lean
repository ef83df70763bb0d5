import Nearcore.ValidatorSelection
import Nearcore.ShardAssignment
import Nearcore.BTreeMap
import Mathlib.Data.String.Basic

/-!
# The epoch info of `proposals_to_epoch_info`

`proposals_to_epoch_info` (`epoch-manager/src/validator_selection.rs`) builds
the `EpochInfo` of the next epoch.  `proposals_with_rollover` merges the new
proposals, the validators of the last epoch (with their rewards) and its
fishermen, dropping the accounts kicked out.  The block producers are the top
of the merged proposals by stake; with `ChunkOnlyProducers` the chunk
producers are a longer top of the same order, at a smaller ratio, and
`assign_shards` spreads them over the shards.  The proposals left become
fishermen, or are kicked out for `NotEnoughStake`.  Validator ids are handed
out to the block producers first, then to each chunk producer the first time a
shard lists it.

Rust's `HashMap`s are `BTreeMap`s here: the code only inserts and looks up,
and the one iteration over a `HashMap` (`proposals.values()`) feeds a heap.
`BinaryHeap::into_iter` yields the proposals left in the heap's own layout; the
model yields them in the order the heap pops them.  The two samplers of
`EpochInfoV3`, which `EpochInfo::new` computes from the stakes, are left out.
-/

namespace Nearcore.EpochManager

/-- `ValidatorKickoutReason`. -/
inductive ValidatorKickoutReason where
  | slashed
  | notEnoughBlocks (produced expected : ℕ)
  | notEnoughChunks (produced expected : ℕ)
  | unstaked
  | notEnoughStake (stake threshold : ℕ)
  | didNotGetASeat
  deriving DecidableEq, Repr

/-- `EpochError::NotEnoughValidators`, the one error `proposals_to_epoch_info`
returns. -/
inductive EpochError where
  | notEnoughValidators (numValidators numShards : ℕ)
  deriving DecidableEq, Repr

structure ValidatorSelectionConfig where
  numChunkOnlyProducerSeats : ℕ
  minimumValidatorsPerShard : ℕ
  /-- A `Rational32`. -/
  minimumStakeRatio : ℚ

/-- The fields of `EpochConfig` that validator selection reads; `numShards` is
`shard_layout.num_shards()`. -/
structure EpochConfig where
  numBlockProducerSeats : ℕ
  numBlockProducerSeatsPerShard : List ℕ
  fishermenThreshold : ℕ
  numShards : ℕ
  validatorSelectionConfig : ValidatorSelectionConfig

/-- `Ratio::new(*rational.numer() as u128, *rational.denom() as u128)`: the
cast of a negative `i32` to `u128` wraps modulo `2 ^ 128`. -/
def EpochConfig.minStakeRatio (epochConfig : EpochConfig) : ℚ :=
  let rational := epochConfig.validatorSelectionConfig.minimumStakeRatio
  ((rational.num % 2 ^ 128).toNat : ℚ) / rational.den

/-- `EpochInfoV3` without its samplers. -/
structure EpochInfo where
  epochHeight : ℕ
  validators : List ValidatorStake
  validatorToIndex : BTreeMap AccountId ℕ
  blockProducersSettlement : List ℕ
  chunkProducersSettlement : List (List ℕ)
  hiddenValidatorsSettlement : List (ℕ × ℕ)
  fishermen : List ValidatorStake
  fishermenToIndex : BTreeMap AccountId ℕ
  stakeChange : BTreeMap AccountId ℕ
  validatorReward : BTreeMap AccountId ℕ
  validatorKickout : BTreeMap AccountId ValidatorKickoutReason
  mintedAmount : ℕ
  seatPrice : ℕ
  protocolVersion : ℕ
  rngSeed : Vector UInt8 32

def EpochInfo.accountIsValidator (info : EpochInfo) (accountId : AccountId) : Bool :=
  (info.validatorToIndex.get? accountId).isSome

def EpochInfo.accountIsFisherman (info : EpochInfo) (accountId : AccountId) : Bool :=
  (info.fishermenToIndex.get? accountId).isSome

/-- `checked_feature!("stable", ChunkOnlyProducers, version)`. -/
def chunkOnlyProducers (version : ℕ) : Bool := decide (56 ≤ version)

/-- `checked_feature!("protocol_feature_fix_staking_threshold", FixStakingThreshold,
version)`: on only in builds with the cargo feature of that name. -/
def fixStakingThreshold (protocolFeatureFixStakingThreshold : Bool) (version : ℕ) : Bool :=
  protocolFeatureFixStakingThreshold && decide (126 ≤ version)

/-! ## `proposals_with_rollover` -/

/-- What `proposals_with_rollover` builds: the proposals by account, and the
`stake_change` and `fishermen` it fills in. -/
structure Rollover where
  proposalsByAccount : BTreeMap AccountId ValidatorStake
  stakeChange : BTreeMap AccountId ℕ
  fishermen : List ValidatorStake

/-- A new proposal: a kicked-out account's is dropped with a zero stake change. -/
def rolloverProposal (validatorKickout : BTreeMap AccountId ValidatorKickoutReason)
    (state : Rollover) (p : ValidatorStake) : Rollover :=
  if (validatorKickout.get? p.accountId).isSome then
    { state with stakeChange := state.stakeChange.insert p.accountId 0 }
  else
    { state with
      stakeChange := state.stakeChange.insert p.accountId p.stake
      proposalsByAccount := state.proposalsByAccount.insert p.accountId p }

/-- A validator of the last epoch: unless kicked out, its proposal (a new one,
or its stake rolled over) gets its reward. -/
def rolloverValidator (validatorReward : BTreeMap AccountId ℕ)
    (validatorKickout : BTreeMap AccountId ValidatorKickoutReason)
    (state : Rollover) (r : ValidatorStake) : Rollover :=
  if (validatorKickout.get? r.accountId).isSome then
    { state with stakeChange := state.stakeChange.insert r.accountId 0 }
  else
    -- `entry(account_id).or_insert(r)`
    let p := (state.proposalsByAccount.get? r.accountId).getD r
    let p := match validatorReward.get? p.accountId with
      | some reward => { p with stake := p.stake + reward }
      | none => p
    { state with
      proposalsByAccount := state.proposalsByAccount.insert r.accountId p
      stakeChange := state.stakeChange.insert p.accountId p.stake }

/-- A fisherman of the last epoch: unless kicked out, it stays a fisherman if it
has no proposal. -/
def rolloverFisherman (validatorKickout : BTreeMap AccountId ValidatorKickoutReason)
    (state : Rollover) (r : ValidatorStake) : Rollover :=
  if (validatorKickout.get? r.accountId).isSome then
    { state with stakeChange := state.stakeChange.insert r.accountId 0 }
  else if (state.proposalsByAccount.get? r.accountId).isNone then
    { state with
      stakeChange := state.stakeChange.insert r.accountId r.stake
      fishermen := state.fishermen ++ [r] }
  else state

def proposalsWithRollover (proposals : List ValidatorStake) (prevEpochInfo : EpochInfo)
    (validatorReward : BTreeMap AccountId ℕ)
    (validatorKickout : BTreeMap AccountId ValidatorKickoutReason)
    (stakeChange : BTreeMap AccountId ℕ) (fishermen : List ValidatorStake) : Rollover :=
  let state := proposals.foldl (rolloverProposal validatorKickout) ⟨.empty, stakeChange, fishermen⟩
  let state := prevEpochInfo.validators.foldl (rolloverValidator validatorReward validatorKickout)
    state
  prevEpochInfo.fishermen.foldl (rolloverFisherman validatorKickout) state

/-! ## Selection -/

/-- `select_chunk_producers`: `select_validators` at the ratio divided by the
number of shards; `none` where `Ratio::new(1, 0)` panics. -/
def selectChunkProducers (allProposals : List ValidatorStake) (maxNumSelected : ℕ)
    (minStakeRatio : ℚ) (numShards : ℕ) (fixStakingThreshold : Bool) :
    Option ((List ValidatorStake × ℕ) × List ValidatorStake) :=
  if numShards = 0 then none
  else selectValidators allProposals maxNumSelected (minStakeRatio * (1 / numShards))
    fixStakingThreshold

/-- What the loop over the proposals left updates. -/
structure Leftover where
  stakeChange : BTreeMap AccountId ℕ
  fishermen : List ValidatorStake
  validatorKickout : BTreeMap AccountId ValidatorKickoutReason

/-- A proposal not selected: a fisherman if its stake reaches
`fishermen_threshold`; otherwise its stake change is zero and, if it was a
validator or fisherman, it is kicked out.  `none` where
`stake_change.get_mut(..).unwrap()` panics. -/
def processLeftover (fishermenThreshold : ℕ) (prevEpochInfo : EpochInfo) (threshold : ℕ)
    (state : Leftover) (p : ValidatorStake) : Option Leftover :=
  if fishermenThreshold ≤ p.stake then some { state with fishermen := state.fishermen ++ [p] }
  else if (state.stakeChange.get? p.accountId).isNone then none
  else
    let stakeChange := state.stakeChange.insert p.accountId 0
    if prevEpochInfo.accountIsValidator p.accountId || prevEpochInfo.accountIsFisherman p.accountId
    then
      some { state with
        stakeChange
        validatorKickout := state.validatorKickout.insert p.accountId
          (.notEnoughStake p.stake threshold) }
    else some { state with stakeChange }

/-! ## Validator ids -/

/-- `iter().enumerate()` collected into a map from account to index, as for the
block producers and for `fishermen_to_index`. -/
def indexAccounts (validators : List ValidatorStake) : BTreeMap AccountId ℕ :=
  validators.zipIdx.foldl (fun m (v, i) => m.insert v.accountId i) .empty

/-- The ids handed out so far: `validator_to_index`, `all_validators` and the
next id `i`. -/
structure Settlement where
  validatorToIndex : BTreeMap AccountId ℕ
  allValidators : List ValidatorStake
  nextId : ℕ

/-- A chunk producer of a shard gets the id of its account, a new one if the
account has none yet. -/
def settleValidator (s : Settlement) (validator : ValidatorStake) : Settlement × ℕ :=
  match s.validatorToIndex.get? validator.accountId with
  | none =>
      (⟨s.validatorToIndex.insert validator.accountId s.nextId, s.allValidators ++ [validator],
        s.nextId + 1⟩, s.nextId)
  | some id => (s, id)

def settleShard : Settlement → List ValidatorStake → Settlement × List ℕ
  | s, [] => (s, [])
  | s, v :: vs =>
      let (s, id) := settleValidator s v
      let (s, ids) := settleShard s vs
      (s, id :: ids)

def settleShards : Settlement → List (List ValidatorStake) → Settlement × List (List ℕ)
  | s, [] => (s, [])
  | s, shard :: shards =>
      let (s, ids) := settleShard s shard
      let (s, rest) := settleShards s shards
      (s, ids :: rest)

/-- `count` seats handed out round robin from `block_producers_settlement`,
starting at `id`; `none` where the index panics. -/
def roundRobin (blockProducersSettlement : List ℕ) : ℕ → ℕ → Option (List ℕ × ℕ)
  | 0, id => some ([], id)
  | count + 1, id => do
      let res ← blockProducersSettlement[id]?
      let (rest, id) ← roundRobin blockProducersSettlement count
        ((id + 1) % blockProducersSettlement.length)
      pure (res :: rest, id)

/-- The chunk producers without `ChunkOnlyProducers`: for each shard,
`num_block_producer_seats_per_shard[shard_id].min(len)` block producers round
robin; `none` where the seats of a shard are out of range. -/
def roundRobinShards (numBlockProducerSeatsPerShard blockProducersSettlement : List ℕ) :
    List ℕ → ℕ → Option (List (List ℕ))
  | [], _ => some []
  | shardId :: shardIds, id => do
      let seats ← numBlockProducerSeatsPerShard[shardId]?
      let (ids, id) ← roundRobin blockProducersSettlement
        (min seats blockProducersSettlement.length) id
      let rest ← roundRobinShards numBlockProducerSeatsPerShard blockProducersSettlement shardIds id
      pure (ids :: rest)

/-- The validators and `chunk_producers_settlement`, from the block producers'
settlement; `fuel` runs the first phase of `assign_shards`. -/
def settleChunkProducers (epochConfig : EpochConfig) (chunkOnly : Bool) (fuel : ℕ)
    (settlement : Settlement) (blockProducersSettlement : List ℕ)
    (chunkProducers : List ValidatorStake) :
    Option (Except EpochError (Settlement × List (List ℕ))) :=
  if chunkOnly then
    match assignShards (·.stake) chunkProducers epochConfig.numShards
        epochConfig.validatorSelectionConfig.minimumValidatorsPerShard fuel with
    | none => none
    | some (.error _) =>
        some (.error (.notEnoughValidators chunkProducers.length epochConfig.numShards))
    | some (.ok shardAssignment) => some (.ok (settleShards settlement shardAssignment))
  else if chunkProducers.isEmpty then some (.error (.notEnoughValidators 0 epochConfig.numShards))
  else
    (roundRobinShards epochConfig.numBlockProducerSeatsPerShard blockProducersSettlement
      (List.range epochConfig.numShards) 0).map fun ids => .ok (settlement, ids)

/-! ## `proposals_to_epoch_info` -/

/-- `proposals_to_epoch_info`: `some (.ok info)` for `Ok(info)`, `some (.error
e)` for `Err(e)`, and `none` where it panics or the fuel of `assign_shards`
runs out. -/
def proposalsToEpochInfo (epochConfig : EpochConfig) (rngSeed : Vector UInt8 32)
    (prevEpochInfo : EpochInfo) (proposals : List ValidatorStake)
    (validatorKickout : BTreeMap AccountId ValidatorKickoutReason)
    (validatorReward : BTreeMap AccountId ℕ) (mintedAmount nextVersion lastVersion : ℕ)
    (protocolFeatureFixStakingThreshold : Bool) (fuel : ℕ) :
    Option (Except EpochError EpochInfo) := do
  let minStakeRatio := epochConfig.minStakeRatio
  let maxBpSelected := epochConfig.numBlockProducerSeats
  let fix := fixStakingThreshold protocolFeatureFixStakingThreshold lastVersion
  let rollover :=
    proposalsWithRollover proposals prevEpochInfo validatorReward validatorKickout .empty []
  let ((blockProducers, bpStakeThreshold), blockProducerProposals) ←
    selectValidators (orderProposals rollover.proposalsByAccount.values) maxBpSelected
      minStakeRatio fix
  let (chunkProducerProposals, chunkProducers, cpStakeThreshold) ←
    (if chunkOnlyProducers nextVersion then
      let maxCpSelected :=
        maxBpSelected + epochConfig.validatorSelectionConfig.numChunkOnlyProducerSeats
      (selectChunkProducers (orderProposals rollover.proposalsByAccount.values) maxCpSelected
          minStakeRatio epochConfig.numShards fix).map
        fun ((chunkProducers, cpStakeThreshold), chunkProducerProposals) =>
          (chunkProducerProposals, chunkProducers, cpStakeThreshold)
    else some (blockProducerProposals, blockProducers, bpStakeThreshold))
  let threshold := min bpStakeThreshold cpStakeThreshold
  let leftover ← chunkProducerProposals.foldlM
    (processLeftover epochConfig.fishermenThreshold prevEpochInfo threshold)
    ⟨rollover.stakeChange, rollover.fishermen, validatorKickout⟩
  let blockProducersSettlement := List.range blockProducers.length
  let settled ← settleChunkProducers epochConfig (chunkOnlyProducers nextVersion) fuel
    ⟨indexAccounts blockProducers, blockProducers, blockProducers.length⟩
    blockProducersSettlement chunkProducers
  match settled with
  | .error e => pure (.error e)
  | .ok (settlement, chunkProducersSettlement) =>
      pure (.ok {
        epochHeight := prevEpochInfo.epochHeight + 1
        validators := settlement.allValidators
        validatorToIndex := settlement.validatorToIndex
        blockProducersSettlement
        chunkProducersSettlement
        hiddenValidatorsSettlement := []
        fishermen := leftover.fishermen
        fishermenToIndex := indexAccounts leftover.fishermen
        stakeChange := leftover.stakeChange
        validatorReward
        validatorKickout := leftover.validatorKickout
        mintedAmount
        seatPrice := threshold
        protocolVersion := nextVersion
        rngSeed })

end Nearcore.EpochManager
