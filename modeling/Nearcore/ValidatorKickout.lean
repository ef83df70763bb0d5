import Nearcore.ValidatorSelectionWellFormed

/-!
# Kicking out validators at the end of an epoch

`EpochManager::compute_kickout_info` (`epoch-manager/src/lib.rs`) decides which
validators of an epoch are kicked out for producing too few blocks or chunks.  A first
loop over the validators that are not slashed collects their stats, the total of their
stakes, and the one with most blocks among those not kicked out in the last epoch.  With
`MaxKickoutStake`, `compute_exempted_kickout` then exempts validators, from the highest
production ratio down and skipping those kicked out in the last epoch, until their stake
reaches `100 - validator_max_kickout_stake_perc` percent of the total.  A second loop
kicks out every validator not exempted that falls below a threshold; if that leaves no
validator standing, the one with most blocks is saved.

The kickout of an epoch spares one validator that was neither slashed nor kicked out
before, and kicks out, of those not kicked out before, at most the stake left above the
exempted share (`computeKickoutInfo_spares`).  Both rest on the epoch info's
`validator_to_index` being the inverse of its list of validators, as
`proposals_to_epoch_info` builds it (`IndexOf`): with an index that names another
validator's entry, the exempted stake is read from the wrong validator
(`computeKickoutInfo_misindexed`).

As in the selection of validators, stakes and counts are natural numbers and the
production ratios (`Rational64`) rational numbers: the overflows of `u128`, `u64` and
`i64` are not modelled.  `HashMap`s are `BTreeMap`s, iterated in key order, and the
`HashSet` of exempted validators is a list; nothing shown here depends on an order.
-/

namespace Nearcore.EpochManager

/-- `ValidatorStats`: blocks or chunks produced and expected. -/
structure ValidatorStats where
  produced : ℕ
  expected : ℕ
  deriving DecidableEq, Repr

/-- `BlockChunkValidatorStats`. -/
structure BlockChunkValidatorStats where
  blockStats : ValidatorStats
  chunkStats : ValidatorStats
  deriving DecidableEq, Repr

/-- `SlashState`. -/
inductive SlashState where
  | doubleSign
  | alreadySlashed
  | other
  deriving DecidableEq, Repr

/-- `checked_feature!("stable", MaxKickoutStake, version)`. -/
def maxKickoutStake (version : ℕ) : Bool := decide (56 ≤ version)

/-- `EpochInfo::get_validator_by_account`; the outer `none` is the panic of
`validators[validator_id]` on an id past the list. -/
def EpochInfo.getValidatorByAccount (info : EpochInfo) (accountId : AccountId) :
    Option (Option ValidatorStake) :=
  match info.validatorToIndex.get? accountId with
  | none => some none
  | some validatorId => info.validators[validatorId]?.map some

/-- The production ratio `compute_exempted_kickout` sorts by: the chunk and the block
ratio, their mean when both are expected, and one when neither is. -/
def productionRatio (stats : BlockChunkValidatorStats) : ℚ :=
  if stats.blockStats.expected = 0 ∧ stats.chunkStats.expected = 0 then 1
  else if stats.blockStats.expected = 0 then
    (stats.chunkStats.produced : ℚ) / stats.chunkStats.expected
  else if stats.chunkStats.expected = 0 then
    (stats.blockStats.produced : ℚ) / stats.blockStats.expected
  else
    ((stats.chunkStats.produced : ℚ) / stats.chunkStats.expected +
      (stats.blockStats.produced : ℚ) / stats.blockStats.expected) / 2

/-- The loop of `compute_exempted_kickout` over the validators from the highest
production ratio down: each one not kicked out in the last epoch is exempted, until
the stake exempted reaches `min_keep_stake`; `none` where the stake lookup panics. -/
def exemptValidators (epochInfo : EpochInfo)
    (prevValidatorKickout : BTreeMap AccountId ValidatorKickoutReason) (minKeepStake : ℕ) :
    List AccountId → ℕ → List AccountId → Option (List AccountId)
  | [], _, exemptedValidators => some exemptedValidators
  | accountId :: rest, exemptedStake, exemptedValidators =>
      if minKeepStake ≤ exemptedStake then some exemptedValidators
      else if (prevValidatorKickout.get? accountId).isSome then
        exemptValidators epochInfo prevValidatorKickout minKeepStake rest exemptedStake
          exemptedValidators
      else do
        let validator ← epochInfo.getValidatorByAccount accountId
        -- `.map(|v| v.stake()).unwrap_or_default()`
        exemptValidators epochInfo prevValidatorKickout minKeepStake rest
          (exemptedStake + (validator.map (·.stake)).getD 0) (exemptedValidators.insert accountId)

/-- `EpochManager::compute_exempted_kickout`. -/
def computeExemptedKickout (epochInfo : EpochInfo)
    (validatorBlockChunkStats : BTreeMap AccountId BlockChunkValidatorStats) (totalStake : ℕ)
    (exemptPerc : ℕ) (prevValidatorKickout : BTreeMap AccountId ValidatorKickoutReason) :
    Option (List AccountId) :=
  if maxKickoutStake epochInfo.protocolVersion then
    let minKeepStake := totalStake * exemptPerc / 100
    -- `sort_by_key` is a stable sort; the loop runs over the sorted list reversed
    let sortedValidators := (validatorBlockChunkStats.entries.map fun entry =>
      (entry.1, productionRatio entry.2)).mergeSort fun a b => decide (a.2 ≤ b.2)
    exemptValidators epochInfo prevValidatorKickout minKeepStake
      (sortedValidators.reverse.map (·.1)) 0 []
  else some []

/-- What the first loop of `compute_kickout_info` accumulates. -/
structure KickoutScan where
  validatorBlockChunkStats : BTreeMap AccountId BlockChunkValidatorStats
  totalStake : ℕ
  maximumBlockProd : ℕ
  maxValidator : Option AccountId

/-- The chunk stats of the validator with id `validatorId`, summed over the shards. -/
def chunkStatsOf (chunkValidatorTracker : BTreeMap ℕ (BTreeMap ℕ ValidatorStats))
    (validatorId : ℕ) : ValidatorStats :=
  chunkValidatorTracker.values.foldl
    (fun chunkStats tracker =>
      match tracker.get? validatorId with
      | some stat => ⟨chunkStats.produced + stat.produced, chunkStats.expected + stat.expected⟩
      | none => chunkStats)
    ⟨0, 0⟩

/-- One turn of the first loop of `compute_kickout_info`, at the validator `v` with id
`validatorId`: a slashed one is skipped. -/
def scanValidator (blockValidatorTracker : BTreeMap ℕ ValidatorStats)
    (chunkValidatorTracker : BTreeMap ℕ (BTreeMap ℕ ValidatorStats))
    (slashed : BTreeMap AccountId SlashState)
    (prevValidatorKickout : BTreeMap AccountId ValidatorKickoutReason)
    (scan : KickoutScan) (v : ValidatorStake) (validatorId : ℕ) : KickoutScan :=
  if (slashed.get? v.accountId).isSome then scan
  else
    let blockStats := (blockValidatorTracker.get? validatorId).getD ⟨0, 0⟩
    let isAlreadyKickedOut := (prevValidatorKickout.get? v.accountId).isSome
    let isMax := (scan.maxValidator.isNone || decide (scan.maximumBlockProd < blockStats.produced))
      && !isAlreadyKickedOut
    { validatorBlockChunkStats := scan.validatorBlockChunkStats.insert v.accountId
        ⟨blockStats, chunkStatsOf chunkValidatorTracker validatorId⟩
      totalStake := scan.totalStake + v.stake
      maximumBlockProd := if isMax then blockStats.produced else scan.maximumBlockProd
      maxValidator := if isMax then some v.accountId else scan.maxValidator }

/-- What the second loop of `compute_kickout_info` accumulates. -/
structure KickoutDecision where
  allKickedOut : Bool
  validatorKickout : BTreeMap AccountId ValidatorKickoutReason

/-- One turn of the second loop of `compute_kickout_info`: a validator not exempted is
kicked out for too few blocks, or else for too few chunks (`or_insert_with`). -/
def decideKickout (blockProducerKickoutThreshold chunkProducerKickoutThreshold : ℕ)
    (exemptedValidators : List AccountId)
    (prevValidatorKickout : BTreeMap AccountId ValidatorKickoutReason)
    (state : KickoutDecision) (accountId : AccountId) (stats : BlockChunkValidatorStats) :
    KickoutDecision :=
  if accountId ∈ exemptedValidators then { state with allKickedOut := false }
  else
    let validatorKickout :=
      if stats.blockStats.produced * 100 < blockProducerKickoutThreshold * stats.blockStats.expected
      then state.validatorKickout.insert accountId
        (.notEnoughBlocks stats.blockStats.produced stats.blockStats.expected)
      else state.validatorKickout
    let validatorKickout :=
      if stats.chunkStats.produced * 100 < chunkProducerKickoutThreshold * stats.chunkStats.expected
        ∧ validatorKickout.get? accountId = none
      then validatorKickout.insert accountId
        (.notEnoughChunks stats.chunkStats.produced stats.chunkStats.expected)
      else validatorKickout
    let isAlreadyKickedOut := (prevValidatorKickout.get? accountId).isSome
    { allKickedOut :=
        if validatorKickout.get? accountId = none ∧ !isAlreadyKickedOut then false
        else state.allKickedOut
      validatorKickout }

/-- The first loop of `compute_kickout_info`, over `validators_iter().enumerate()`. -/
def scanValidators (blockValidatorTracker : BTreeMap ℕ ValidatorStats)
    (chunkValidatorTracker : BTreeMap ℕ (BTreeMap ℕ ValidatorStats))
    (slashed : BTreeMap AccountId SlashState)
    (prevValidatorKickout : BTreeMap AccountId ValidatorKickoutReason)
    (validators : List ValidatorStake) : KickoutScan :=
  validators.zipIdx.foldl
    (fun scan entry => scanValidator blockValidatorTracker chunkValidatorTracker slashed
      prevValidatorKickout scan entry.1 entry.2)
    ⟨.empty, 0, 0, none⟩

/-- The second loop of `compute_kickout_info`, over the stats of the first. -/
def decideKickouts (blockProducerKickoutThreshold chunkProducerKickoutThreshold : ℕ)
    (exemptedValidators : List AccountId)
    (prevValidatorKickout : BTreeMap AccountId ValidatorKickoutReason)
    (validatorBlockChunkStats : BTreeMap AccountId BlockChunkValidatorStats) : KickoutDecision :=
  validatorBlockChunkStats.entries.foldl
    (fun state entry => decideKickout blockProducerKickoutThreshold chunkProducerKickoutThreshold
      exemptedValidators prevValidatorKickout state entry.1 entry.2)
    ⟨true, .empty⟩

/-- The kickouts after the second loop: if it kicked out every validator, now or in the
last epoch, the one with most blocks is saved. -/
def saveMaxValidator (decision : KickoutDecision) (maxValidator : Option AccountId) :
    BTreeMap AccountId ValidatorKickoutReason :=
  if decision.allKickedOut then
    match maxValidator with
    | some validator => decision.validatorKickout.erase validator
    | none => decision.validatorKickout
  else decision.validatorKickout

/-- `EpochManager::compute_kickout_info`: the validators kicked out, and the stats of
the others; `none` where it panics.  The three fields of `EpochConfig` it reads are
parameters. -/
def computeKickoutInfo (blockProducerKickoutThreshold chunkProducerKickoutThreshold
      validatorMaxKickoutStakePerc : ℕ) (epochInfo : EpochInfo)
    (blockValidatorTracker : BTreeMap ℕ ValidatorStats)
    (chunkValidatorTracker : BTreeMap ℕ (BTreeMap ℕ ValidatorStats))
    (slashed : BTreeMap AccountId SlashState)
    (prevValidatorKickout : BTreeMap AccountId ValidatorKickoutReason) :
    Option (BTreeMap AccountId ValidatorKickoutReason ×
      BTreeMap AccountId BlockChunkValidatorStats) := do
  let scan := scanValidators blockValidatorTracker chunkValidatorTracker slashed
    prevValidatorKickout epochInfo.validators
  -- `100_u8.checked_sub(validator_max_kickout_stake_perc).unwrap_or_default()`
  let exemptPerc := 100 - validatorMaxKickoutStakePerc
  let exemptedValidators ← computeExemptedKickout epochInfo scan.validatorBlockChunkStats
    scan.totalStake exemptPerc prevValidatorKickout
  let decision := decideKickouts blockProducerKickoutThreshold chunkProducerKickoutThreshold
    exemptedValidators prevValidatorKickout scan.validatorBlockChunkStats
  let validatorKickout := saveMaxValidator decision scan.maxValidator
  some (validatorKickout, validatorKickout.keys.foldl BTreeMap.erase scan.validatorBlockChunkStats)

/-! ## Stakes under a consistent index -/

section Index

variable {toIndex : BTreeMap AccountId ℕ} {validators : List ValidatorStake}

theorem IndexOf.nodup_accountId (hidx : IndexOf toIndex validators) :
    (validators.map (·.accountId)).Nodup := by
  rw [List.nodup_iff_injective_get]
  intro ⟨i, hi⟩ ⟨j, hj⟩ hacc
  rw [List.length_map] at hi hj
  simp only [List.get_eq_getElem, List.getElem_map] at hacc
  have hgeti := (hidx _ i).mpr ⟨hi, rfl⟩
  have hgetj := (hidx _ j).mpr ⟨hj, hacc.symm⟩
  rw [hgeti] at hgetj
  exact Fin.ext (Option.some.inj hgetj)

theorem IndexOf.eq_of_accountId_eq (hidx : IndexOf toIndex validators) {v w : ValidatorStake}
    (hv : v ∈ validators) (hw : w ∈ validators) (hacc : v.accountId = w.accountId) : v = w :=
  List.inj_on_of_nodup_map hidx.nodup_accountId hv hw hacc

end Index

/-- The stake `compute_exempted_kickout` counts for an account: that of the validator
the epoch info indexes it to. -/
def EpochInfo.stakeByAccount (info : EpochInfo) (accountId : AccountId) : ℕ :=
  (((info.getValidatorByAccount accountId).bind id).map (·.stake)).getD 0

section Lookup

variable {epochInfo : EpochInfo}

theorem getValidatorByAccount_of_mem (hidx : IndexOf epochInfo.validatorToIndex epochInfo.validators)
    {v : ValidatorStake} (hv : v ∈ epochInfo.validators) :
    epochInfo.getValidatorByAccount v.accountId = some (some v) := by
  obtain ⟨id, hid⟩ := hidx.get?_of_mem hv
  obtain ⟨hlt, hacc⟩ := (hidx _ id).mp hid
  have heq : epochInfo.validators[id] = v := hidx.eq_of_accountId_eq (List.getElem_mem hlt) hv hacc
  simp only [EpochInfo.getValidatorByAccount, hid, List.getElem?_eq_getElem hlt, heq, Option.map_some]

theorem stakeByAccount_of_mem (hidx : IndexOf epochInfo.validatorToIndex epochInfo.validators)
    {v : ValidatorStake} (hv : v ∈ epochInfo.validators) :
    epochInfo.stakeByAccount v.accountId = v.stake := by
  simp [EpochInfo.stakeByAccount, getValidatorByAccount_of_mem hidx hv]

/-- The stake counted for distinct accounts of validators is the stake of those
validators. -/
theorem sum_stakeByAccount (hidx : IndexOf epochInfo.validatorToIndex epochInfo.validators)
    {accounts : List AccountId} (hnodup : accounts.Nodup)
    (hmem : ∀ a ∈ accounts, ∃ v ∈ epochInfo.validators, v.accountId = a) :
    (accounts.map epochInfo.stakeByAccount).sum =
      ∑ v ∈ epochInfo.validators.toFinset with v.accountId ∈ accounts, v.stake := by
  induction accounts with
  | nil => simp
  | cons a accounts ih =>
      obtain ⟨hfresh, htail⟩ := List.nodup_cons.mp hnodup
      obtain ⟨w, hw, rfl⟩ := hmem a List.mem_cons_self
      have hinsert : epochInfo.validators.toFinset.filter (·.accountId ∈ w.accountId :: accounts) =
          insert w (epochInfo.validators.toFinset.filter (·.accountId ∈ accounts)) := by
        ext v
        simp only [Finset.mem_filter, List.mem_toFinset, List.mem_cons, Finset.mem_insert]
        constructor
        · rintro ⟨hv, hacc | hacc⟩
          · exact .inl (hidx.eq_of_accountId_eq hv hw hacc)
          · exact .inr ⟨hv, hacc⟩
        · rintro (rfl | ⟨hv, hacc⟩)
          · exact ⟨hw, .inl rfl⟩
          · exact ⟨hv, .inr hacc⟩
      have hnotin : w ∉ epochInfo.validators.toFinset.filter (·.accountId ∈ accounts) := by
        simp only [Finset.mem_filter, not_and]
        exact fun _ => hfresh
      rw [List.map_cons, List.sum_cons, hinsert, Finset.sum_insert hnotin, stakeByAccount_of_mem hidx hw,
        ih htail fun a ha => hmem a (List.mem_cons_of_mem _ ha)]

end Lookup

/-- A sum over the validators that pass a test, as a sum over a finite set. -/
theorem sum_filter_eq_finsetSum {validators : List ValidatorStake} (hnodup : validators.Nodup)
    (p : ValidatorStake → Bool) :
    ((validators.filter p).map (·.stake)).sum = ∑ v ∈ validators.toFinset with p v, v.stake := by
  rw [← List.toFinset_filter, List.sum_toFinset _ (hnodup.filter p)]

/-! ## The exempted validators -/

section Exempt

variable {epochInfo : EpochInfo} {prevValidatorKickout : BTreeMap AccountId ValidatorKickoutReason}
  {minKeepStake : ℕ}

/-- The loop of `compute_exempted_kickout` does not panic when every stake lookup
succeeds, and either exempts at least `min_keep_stake` or every account it is given that
was not kicked out in the last epoch; induction on the accounts, the stake exempted so
far being the stake of the accounts exempted so far. -/
theorem exemptValidators_spec :
    ∀ {accounts : List AccountId} {exemptedStake : ℕ} {exemptedValidators : List AccountId},
      (∀ a ∈ accounts, (epochInfo.getValidatorByAccount a).isSome) → accounts.Nodup →
      exemptedValidators.Nodup → (∀ a ∈ accounts, a ∉ exemptedValidators) →
      exemptedStake = (exemptedValidators.map epochInfo.stakeByAccount).sum →
      ∃ exempted, exemptValidators epochInfo prevValidatorKickout minKeepStake accounts
          exemptedStake exemptedValidators = some exempted ∧
        exempted.Nodup ∧ (∀ a ∈ exemptedValidators, a ∈ exempted) ∧
        (∀ a ∈ exempted, a ∈ exemptedValidators ∨ a ∈ accounts ∧ prevValidatorKickout.get? a = none) ∧
        (minKeepStake ≤ (exempted.map epochInfo.stakeByAccount).sum ∨
          ∀ a ∈ accounts, prevValidatorKickout.get? a = none → a ∈ exempted)
  | [], _, exemptedValidators, _, _, hnodup, _, _ =>
      ⟨exemptedValidators, rfl, hnodup, fun _ ha => ha, fun _ ha => .inl ha,
        .inr fun _ ha => absurd ha List.not_mem_nil⟩
  | a :: accounts, exemptedStake, exemptedValidators, hlookup, haccounts, hnodup, hfresh, hstake => by
      obtain ⟨ha, htail⟩ := List.nodup_cons.mp haccounts
      unfold exemptValidators
      split_ifs with hkeep hprev
      · -- the stake exempted already reaches `min_keep_stake`
        exact ⟨exemptedValidators, rfl, hnodup, fun _ hb => hb, fun _ hb => .inl hb,
          .inl (hstake ▸ hkeep)⟩
      · -- `a` was kicked out in the last epoch and is skipped
        obtain ⟨exempted, hrun, hnodup', hkept, hfrom, hdone⟩ :=
          exemptValidators_spec (fun b hb => hlookup b (List.mem_cons_of_mem a hb)) htail hnodup
            (fun b hb => hfresh b (List.mem_cons_of_mem a hb)) hstake
        refine ⟨exempted, hrun, hnodup', hkept, fun b hb => ?_, hdone.imp_right fun hall b hb hnone => ?_⟩
        · exact (hfrom b hb).imp_right fun h => ⟨List.mem_cons_of_mem a h.1, h.2⟩
        · rcases List.mem_cons.mp hb with rfl | hb
          · rw [hnone] at hprev
            exact absurd hprev (by decide)
          · exact hall b hb hnone
      · -- `a` is exempted with the stake of its validator
        obtain ⟨validator, hvalidator⟩ := Option.isSome_iff_exists.mp (hlookup a List.mem_cons_self)
        have hnotin : a ∉ exemptedValidators := hfresh a List.mem_cons_self
        have hstake' : exemptedStake + (validator.map (·.stake)).getD 0 =
            ((exemptedValidators.insert a).map epochInfo.stakeByAccount).sum := by
          rw [List.insert_of_not_mem hnotin, List.map_cons, List.sum_cons, hstake,
            EpochInfo.stakeByAccount, hvalidator]
          simp only [Option.bind_some, id]
          omega
        obtain ⟨exempted, hrun, hnodup', hkept, hfrom, hdone⟩ :=
          exemptValidators_spec (fun b hb => hlookup b (List.mem_cons_of_mem a hb)) htail
            (List.Nodup.insert (a := a) hnodup)
            (fun b hb hmem => by
              rcases List.mem_insert_iff.mp hmem with rfl | hmem
              · exact ha hb
              · exact hfresh b (List.mem_cons_of_mem a hb) hmem)
            hstake'
        have hprev' : prevValidatorKickout.get? a = none := by
          simpa [Option.isSome_iff_ne_none] using hprev
        refine ⟨exempted, by rw [hvalidator]; exact hrun, hnodup',
          fun b hb => hkept b (List.mem_insert_of_mem hb), fun b hb => ?_,
          hdone.imp_right fun hall b hb hnone => ?_⟩
        · rcases hfrom b hb with hmem | ⟨hmem, hnone⟩
          · rcases List.mem_insert_iff.mp hmem with rfl | hmem
            · exact .inr ⟨List.mem_cons_self, hprev'⟩
            · exact .inl hmem
          · exact .inr ⟨List.mem_cons_of_mem a hmem, hnone⟩
        · rcases List.mem_cons.mp hb with rfl | hb
          · exact hkept b List.mem_insert_self
          · exact hall b hb hnone

/-- `compute_exempted_kickout` over the stats of validators of the epoch: it does not
panic, exempts distinct accounts of the stats not kicked out in the last epoch, and with
`MaxKickoutStake` either exempts at least `min_keep_stake` or every such account. -/
theorem computeExemptedKickout_spec (hidx : IndexOf epochInfo.validatorToIndex epochInfo.validators)
    {validatorBlockChunkStats : BTreeMap AccountId BlockChunkValidatorStats} {totalStake exemptPerc : ℕ}
    (hkeys : ∀ a ∈ validatorBlockChunkStats.keys, ∃ v ∈ epochInfo.validators, v.accountId = a) :
    ∃ exempted, computeExemptedKickout epochInfo validatorBlockChunkStats totalStake exemptPerc
        prevValidatorKickout = some exempted ∧
      exempted.Nodup ∧
      (∀ a ∈ exempted, a ∈ validatorBlockChunkStats.keys ∧ prevValidatorKickout.get? a = none) ∧
      (maxKickoutStake epochInfo.protocolVersion = true →
        totalStake * exemptPerc / 100 ≤ (exempted.map epochInfo.stakeByAccount).sum ∨
          ∀ a ∈ validatorBlockChunkStats.keys, prevValidatorKickout.get? a = none → a ∈ exempted) := by
  unfold computeExemptedKickout
  split_ifs with hfeature
  · -- the accounts, sorted by production ratio, are those of the stats
    have hperm : List.Perm (((validatorBlockChunkStats.entries.map fun entry =>
        (entry.1, productionRatio entry.2)).mergeSort fun a b => decide (a.2 ≤ b.2)).reverse.map (·.1))
          validatorBlockChunkStats.keys := by
      refine (((List.reverse_perm _).trans (List.mergeSort_perm _ _)).map Prod.fst).trans ?_
      simp [List.map_map, BTreeMap.keys, Function.comp_def]
    obtain ⟨exempted, hrun, hnodup, -, hfrom, hdone⟩ :=
      @exemptValidators_spec epochInfo prevValidatorKickout (totalStake * exemptPerc / 100) _ _ _
        (fun a ha => by
          obtain ⟨v, hv, rfl⟩ := hkeys a (hperm.mem_iff.mp ha)
          rw [getValidatorByAccount_of_mem hidx hv]
          rfl)
        (hperm.nodup_iff.mpr (BTreeMap.keys_nodup _)) List.nodup_nil
        (fun _ _ h => absurd h List.not_mem_nil) rfl
    refine ⟨exempted, hrun, hnodup, fun a ha => ?_, fun _ => ?_⟩
    · obtain ⟨hmem, hnone⟩ := (hfrom a ha).resolve_left List.not_mem_nil
      exact ⟨hperm.mem_iff.mp hmem, hnone⟩
    · exact hdone.imp_right fun hall a ha hnone => hall a (hperm.mem_iff.mpr ha) hnone
  · exact ⟨[], rfl, List.nodup_nil, fun _ ha => absurd ha List.not_mem_nil,
      fun h => absurd h hfeature⟩

end Exempt

/-! ## The first loop: stats, total stake and the validator with most blocks -/

/-- What the first loop of `compute_kickout_info` has gathered after the validators
`seen`: the stats of exactly those not slashed, the total of their stakes, and a
validator with most blocks, not kicked out in the last epoch, as soon as one is seen. -/
structure ScanInvariant (slashed : BTreeMap AccountId SlashState)
    (prevValidatorKickout : BTreeMap AccountId ValidatorKickoutReason)
    (seen : List ValidatorStake) (scan : KickoutScan) : Prop where
  stats_isSome : ∀ a, (scan.validatorBlockChunkStats.get? a).isSome ↔
    ∃ v ∈ seen, v.accountId = a ∧ slashed.get? a = none
  totalStake_eq : scan.totalStake =
    ((seen.filter fun v => slashed.get? v.accountId = none).map (·.stake)).sum
  maxValidator_mem : ∀ m, scan.maxValidator = some m →
    (scan.validatorBlockChunkStats.get? m).isSome ∧ prevValidatorKickout.get? m = none
  maxValidator_isSome : (∃ v ∈ seen, slashed.get? v.accountId = none ∧
    prevValidatorKickout.get? v.accountId = none) → scan.maxValidator.isSome

section Scan

variable {blockValidatorTracker : BTreeMap ℕ ValidatorStats}
  {chunkValidatorTracker : BTreeMap ℕ (BTreeMap ℕ ValidatorStats)}
  {slashed : BTreeMap AccountId SlashState}
  {prevValidatorKickout : BTreeMap AccountId ValidatorKickoutReason}

theorem scanInvariant_empty :
    ScanInvariant slashed prevValidatorKickout [] ⟨.empty, 0, 0, none⟩ :=
  ⟨by simp, rfl, fun _ h => absurd h (by simp), fun ⟨_, hv, _⟩ => absurd hv List.not_mem_nil⟩

/-- One turn of the first loop keeps the invariant; the cases are those of
`scanValidator`: a slashed validator, then whether the validator seen has most blocks. -/
theorem ScanInvariant.step {seen : List ValidatorStake} {scan : KickoutScan}
    (hinv : ScanInvariant slashed prevValidatorKickout seen scan) (v : ValidatorStake)
    (validatorId : ℕ) :
    ScanInvariant slashed prevValidatorKickout (seen ++ [v])
      (scanValidator blockValidatorTracker chunkValidatorTracker slashed prevValidatorKickout scan
        v validatorId) := by
  unfold scanValidator
  split_ifs with hslashed
  · -- a slashed validator is skipped
    have hne : ∀ a, v.accountId = a → slashed.get? a ≠ none := by
      rintro a rfl hnone
      rw [hnone] at hslashed
      exact absurd hslashed (by decide)
    refine ⟨fun a => ?_, ?_, hinv.maxValidator_mem, fun ⟨u, hu, hnone⟩ => ?_⟩
    · rw [hinv.stats_isSome a]
      simp only [List.mem_append, List.mem_singleton]
      constructor
      · rintro ⟨u, hu, hacc⟩
        exact ⟨u, .inl hu, hacc⟩
      · rintro ⟨u, hu | rfl, hacc, hnone⟩
        · exact ⟨u, hu, hacc, hnone⟩
        · exact absurd hnone (hne a hacc)
    · rw [List.filter_append, hinv.totalStake_eq]
      simp [hne v.accountId rfl]
    · rcases List.mem_append.mp hu with hu | hu
      · exact hinv.maxValidator_isSome ⟨u, hu, hnone⟩
      · rw [List.mem_singleton.mp hu] at hnone
        exact absurd hnone.1 (hne v.accountId rfl)
  · have hnone : slashed.get? v.accountId = none := by
      simpa [Option.isSome_iff_ne_none] using hslashed
    dsimp only
    refine ⟨fun a => ?_, ?_, fun m hm => ?_, fun ⟨u, hu, hunone⟩ => ?_⟩
    · rw [BTreeMap.get?_insert]
      split
      · next hacc =>
          subst hacc
          simp only [Option.isSome_some, true_iff]
          exact ⟨v, List.mem_append_right _ (List.mem_singleton_self v), rfl, hnone⟩
      · next hacc =>
          rw [hinv.stats_isSome a]
          simp only [List.mem_append, List.mem_singleton]
          constructor
          · rintro ⟨u, hu, hu'⟩
            exact ⟨u, .inl hu, hu'⟩
          · rintro ⟨u, hu | rfl, hu'⟩
            · exact ⟨u, hu, hu'⟩
            · exact absurd hu'.1 hacc
    · rw [List.filter_append, hinv.totalStake_eq]
      simp [hnone]
    · rw [BTreeMap.get?_insert]
      split_ifs at hm with hmax
      · -- the validator seen has most blocks so far
        cases hm
        simp only [Bool.and_eq_true, Bool.not_eq_true', Option.isSome_eq_false_iff,
          Option.isNone_iff_eq_none] at hmax
        exact ⟨by simp, hmax.2⟩
      · obtain ⟨hstats, hprev⟩ := hinv.maxValidator_mem m hm
        refine ⟨?_, hprev⟩
        split
        · rfl
        · exact hstats
    · split_ifs with hmax
      · rfl
      · rcases List.mem_append.mp hu with hu | hu
        · exact hinv.maxValidator_isSome ⟨u, hu, hunone⟩
        · -- the validator seen was not kicked out, so a validator with most blocks was
          rw [List.mem_singleton.mp hu] at hunone
          simp only [hunone.2, Option.isSome_none, Bool.not_false, Bool.and_true,
            Bool.or_eq_true, Option.isNone_iff_eq_none, decide_eq_true_eq, not_or] at hmax
          exact Option.isSome_iff_ne_none.mpr hmax.1

/-- The invariant after the whole first loop, by induction on the validators seen. -/
theorem scanInvariant_foldl (entries : List (ValidatorStake × ℕ)) :
    ScanInvariant slashed prevValidatorKickout (entries.map Prod.fst)
      (entries.foldl (fun scan entry => scanValidator blockValidatorTracker chunkValidatorTracker
        slashed prevValidatorKickout scan entry.1 entry.2) ⟨.empty, 0, 0, none⟩) := by
  induction entries using List.reverseRecOn with
  | nil => exact scanInvariant_empty
  | append_singleton entries entry ih =>
      rw [List.foldl_append, List.map_append, List.foldl_cons, List.foldl_nil, List.map_singleton]
      exact ih.step entry.1 entry.2

theorem scanInvariant_scanValidators (validators : List ValidatorStake) :
    ScanInvariant slashed prevValidatorKickout validators
      (scanValidators blockValidatorTracker chunkValidatorTracker slashed prevValidatorKickout
        validators) := by
  have hinv := @scanInvariant_foldl blockValidatorTracker chunkValidatorTracker slashed
    prevValidatorKickout validators.zipIdx
  rwa [List.zipIdx_map_fst] at hinv

end Scan

/-! ## The second loop: who is kicked out -/

/-- What the second loop of `compute_kickout_info` has decided after the accounts
`seen`: only accounts seen and not exempted are kicked out, and once `all_kicked_out`
fails some account seen is neither kicked out now nor was in the last epoch. -/
structure DecisionInvariant (exemptedValidators : List AccountId)
    (prevValidatorKickout : BTreeMap AccountId ValidatorKickoutReason)
    (seen : List AccountId) (state : KickoutDecision) : Prop where
  kicked_mem : ∀ a, (state.validatorKickout.get? a).isSome → a ∈ seen
  kicked_not_exempted : ∀ a, (state.validatorKickout.get? a).isSome → a ∉ exemptedValidators
  spared : state.allKickedOut = false →
    ∃ a ∈ seen, state.validatorKickout.get? a = none ∧ prevValidatorKickout.get? a = none

section Decision

variable {blockProducerKickoutThreshold chunkProducerKickoutThreshold : ℕ}
  {exemptedValidators : List AccountId}
  {prevValidatorKickout : BTreeMap AccountId ValidatorKickoutReason}

theorem decideKickout_of_mem {state : KickoutDecision} {accountId : AccountId}
    (stats : BlockChunkValidatorStats) (hmem : accountId ∈ exemptedValidators) :
    decideKickout blockProducerKickoutThreshold chunkProducerKickoutThreshold exemptedValidators
      prevValidatorKickout state accountId stats = { state with allKickedOut := false } := by
  unfold decideKickout
  rw [if_pos hmem]

/-- A validator not exempted: the kickouts change at its account only, and
`all_kicked_out` fails when it is neither kicked out now nor was in the last epoch. -/
theorem decideKickout_of_not_mem {state : KickoutDecision} {accountId : AccountId}
    (stats : BlockChunkValidatorStats) (hmem : accountId ∉ exemptedValidators) :
    ∃ validatorKickout : BTreeMap AccountId ValidatorKickoutReason,
      (∀ a, a ≠ accountId → validatorKickout.get? a = state.validatorKickout.get? a) ∧
      decideKickout blockProducerKickoutThreshold chunkProducerKickoutThreshold exemptedValidators
          prevValidatorKickout state accountId stats =
        { allKickedOut :=
            if validatorKickout.get? accountId = none ∧
                (!(prevValidatorKickout.get? accountId).isSome) = true
            then false else state.allKickedOut
          validatorKickout } := by
  unfold decideKickout
  rw [if_neg hmem]
  refine ⟨_, fun a hne => ?_, rfl⟩
  split_ifs <;> simp [BTreeMap.get?_insert, Ne.symm hne]

theorem DecisionInvariant.step (hexempted : ∀ a ∈ exemptedValidators, prevValidatorKickout.get? a = none)
    {seen : List AccountId} {state : KickoutDecision}
    (hinv : DecisionInvariant exemptedValidators prevValidatorKickout seen state)
    {accountId : AccountId} (hfresh : accountId ∉ seen) (stats : BlockChunkValidatorStats) :
    DecisionInvariant exemptedValidators prevValidatorKickout (seen ++ [accountId])
      (decideKickout blockProducerKickoutThreshold chunkProducerKickoutThreshold exemptedValidators
        prevValidatorKickout state accountId stats) := by
  have hnone : state.validatorKickout.get? accountId = none :=
    Option.eq_none_iff_forall_ne_some.mpr fun _ hsome => hfresh (hinv.kicked_mem _ (by simp [hsome]))
  by_cases hmem : accountId ∈ exemptedValidators
  · rw [decideKickout_of_mem stats hmem]
    exact ⟨fun a ha => List.mem_append_left _ (hinv.kicked_mem a ha), hinv.kicked_not_exempted,
      fun _ => ⟨accountId, List.mem_append_right _ (List.mem_singleton_self _), hnone,
        hexempted accountId hmem⟩⟩
  · obtain ⟨validatorKickout, hframe, heq⟩ := @decideKickout_of_not_mem
      blockProducerKickoutThreshold chunkProducerKickoutThreshold exemptedValidators
      prevValidatorKickout state accountId stats hmem
    rw [heq]
    refine ⟨fun a ha => ?_, fun a ha => ?_, fun hall => ?_⟩
    · by_cases hne : a = accountId
      · exact hne ▸ List.mem_append_right _ (List.mem_singleton_self _)
      · rw [hframe a hne] at ha
        exact List.mem_append_left _ (hinv.kicked_mem a ha)
    · by_cases hne : a = accountId
      · exact hne ▸ hmem
      · rw [hframe a hne] at ha
        exact hinv.kicked_not_exempted a ha
    · dsimp only at hall
      split_ifs at hall with hspared
      · -- the account itself is spared
        obtain ⟨hkicked, hprev⟩ := hspared
        exact ⟨accountId, List.mem_append_right _ (List.mem_singleton_self _), hkicked,
          by simpa [Option.isSome_iff_ne_none] using hprev⟩
      · obtain ⟨a, ha, hkicked, hprev⟩ := hinv.spared hall
        have hne : a ≠ accountId := fun h => hfresh (h ▸ ha)
        exact ⟨a, List.mem_append_left _ ha, by rw [hframe a hne, hkicked], hprev⟩

/-- The invariant after the second loop, by induction on the stats, whose accounts are
distinct. -/
theorem decisionInvariant_foldl
    (hexempted : ∀ a ∈ exemptedValidators, prevValidatorKickout.get? a = none)
    (entries : List (AccountId × BlockChunkValidatorStats)) (hnodup : (entries.map Prod.fst).Nodup) :
    DecisionInvariant exemptedValidators prevValidatorKickout (entries.map Prod.fst)
      (entries.foldl (fun state entry => decideKickout blockProducerKickoutThreshold
        chunkProducerKickoutThreshold exemptedValidators prevValidatorKickout state entry.1 entry.2)
        ⟨true, .empty⟩) := by
  induction entries using List.reverseRecOn with
  | nil => exact ⟨fun _ h => absurd h (by simp), fun _ h => absurd h (by simp), fun h => by simp at h⟩
  | append_singleton entries entry ih =>
      rw [List.map_append, List.map_singleton, List.nodup_append] at hnodup
      rw [List.foldl_append, List.foldl_cons, List.foldl_nil, List.map_append, List.map_singleton]
      exact (ih hnodup.1).step hexempted (fun h => hnodup.2.2 _ h _ (List.mem_singleton_self _) rfl)
        entry.2

theorem decisionInvariant_decideKickouts
    (hexempted : ∀ a ∈ exemptedValidators, prevValidatorKickout.get? a = none)
    (validatorBlockChunkStats : BTreeMap AccountId BlockChunkValidatorStats) :
    DecisionInvariant exemptedValidators prevValidatorKickout validatorBlockChunkStats.keys
      (decideKickouts blockProducerKickoutThreshold chunkProducerKickoutThreshold
        exemptedValidators prevValidatorKickout validatorBlockChunkStats) :=
  decisionInvariant_foldl hexempted _ (BTreeMap.keys_nodup validatorBlockChunkStats)

end Decision

/-! ## What `compute_kickout_info` returns -/

theorem saveMaxValidator_isSome {decision : KickoutDecision} {maxValidator : Option AccountId}
    {a : AccountId} (h : ((saveMaxValidator decision maxValidator).get? a).isSome) :
    (decision.validatorKickout.get? a).isSome := by
  unfold saveMaxValidator at h
  split_ifs at h
  · split at h
    · rw [BTreeMap.get?_erase] at h
      split_ifs at h
      · exact absurd h (by simp)
      · exact h
    · exact h
  · exact h

section Result

variable {slashed : BTreeMap AccountId SlashState}
  {prevValidatorKickout : BTreeMap AccountId ValidatorKickoutReason}
  {exemptedValidators : List AccountId} {validators : List ValidatorStake} {scan : KickoutScan}
  {decision : KickoutDecision}

/-- After the save, some validator seen is neither slashed nor kicked out, now or in the
last epoch: one spared by the second loop, or else the one with most blocks. -/
theorem saveMaxValidator_spares (hscan : ScanInvariant slashed prevValidatorKickout validators scan)
    (hdecision : DecisionInvariant exemptedValidators prevValidatorKickout
      scan.validatorBlockChunkStats.keys decision)
    (hsome : ∃ v ∈ validators, slashed.get? v.accountId = none ∧
      prevValidatorKickout.get? v.accountId = none) :
    ∃ v ∈ validators, slashed.get? v.accountId = none ∧
      (saveMaxValidator decision scan.maxValidator).get? v.accountId = none ∧
      prevValidatorKickout.get? v.accountId = none := by
  have hstats : ∀ a, (scan.validatorBlockChunkStats.get? a).isSome →
      ∃ v ∈ validators, v.accountId = a ∧ slashed.get? a = none :=
    fun a h => (hscan.stats_isSome a).mp h
  unfold saveMaxValidator
  cases hall : decision.allKickedOut with
  | false =>
      obtain ⟨a, ha, hkicked, hprev⟩ := hdecision.spared hall
      obtain ⟨stats, hget⟩ := (BTreeMap.mem_keys_iff _ a).mp ha
      obtain ⟨v, hv, rfl, hslashed⟩ := hstats a (by simp [hget])
      exact ⟨v, hv, hslashed, hkicked, hprev⟩
  | true =>
      obtain ⟨m, hm⟩ := Option.isSome_iff_exists.mp (hscan.maxValidator_isSome hsome)
      obtain ⟨hmstats, hprev⟩ := hscan.maxValidator_mem m hm
      obtain ⟨v, hv, rfl, hslashed⟩ := hstats m hmstats
      refine ⟨v, hv, hslashed, ?_, hprev⟩
      simp [hm, BTreeMap.get?_erase]

/-- With `MaxKickoutStake`, the stake kicked out, of validators not kicked out in the
last epoch, is at most the total stake less the stake to keep: either the exempted
validators hold that much, or every validator not kicked out before is exempted. -/
theorem kickedOutStake_le (hnodup : validators.Nodup)
    (hscan : ScanInvariant slashed prevValidatorKickout validators scan)
    (hdecision : DecisionInvariant exemptedValidators prevValidatorKickout
      scan.validatorBlockChunkStats.keys decision)
    (hexempted : ∀ a ∈ exemptedValidators, a ∈ scan.validatorBlockChunkStats.keys)
    {stakeOf : AccountId → ℕ}
    (hexemptedStake : (exemptedValidators.map stakeOf).sum =
      ∑ v ∈ validators.toFinset with v.accountId ∈ exemptedValidators, v.stake)
    {minKeepStake : ℕ}
    (hkeep : minKeepStake ≤ (exemptedValidators.map stakeOf).sum ∨
      ∀ a ∈ scan.validatorBlockChunkStats.keys, prevValidatorKickout.get? a = none →
        a ∈ exemptedValidators) :
    ((validators.filter fun v => ((saveMaxValidator decision scan.maxValidator).get?
        v.accountId).isSome ∧ prevValidatorKickout.get? v.accountId = none).map (·.stake)).sum ≤
      scan.totalStake - minKeepStake := by
  rw [sum_filter_eq_finsetSum hnodup, hscan.totalStake_eq, sum_filter_eq_finsetSum hnodup]
  simp only [decide_eq_true_eq]
  have hkicked : ∀ a, ((saveMaxValidator decision scan.maxValidator).get? a).isSome →
      slashed.get? a = none ∧ a ∉ exemptedValidators ∧ a ∈ scan.validatorBlockChunkStats.keys := by
    intro a ha
    have ha' := saveMaxValidator_isSome ha
    have hmem := hdecision.kicked_mem a ha'
    obtain ⟨stats, hget⟩ := (BTreeMap.mem_keys_iff _ a).mp hmem
    obtain ⟨-, -, -, hslashed⟩ := (hscan.stats_isSome a).mp (by simp [hget])
    exact ⟨hslashed, hdecision.kicked_not_exempted a ha', hmem⟩
  have hexemptedSub : validators.toFinset.filter (·.accountId ∈ exemptedValidators) ⊆
      validators.toFinset.filter (fun v => slashed.get? v.accountId = none) := by
    intro v hv
    simp only [Finset.mem_filter] at hv ⊢
    obtain ⟨stats, hget⟩ := (BTreeMap.mem_keys_iff _ _).mp (hexempted _ hv.2)
    obtain ⟨-, -, -, hslashed⟩ := (hscan.stats_isSome v.accountId).mp (by simp [hget])
    exact ⟨hv.1, hslashed⟩
  have hsplit := Finset.sum_sdiff hexemptedSub (f := (·.stake))
  rcases hkeep with hkeep | hall
  · -- the kicked out validators are among those neither slashed nor exempted
    have hkickedSub : validators.toFinset.filter (fun v => ((saveMaxValidator decision
          scan.maxValidator).get? v.accountId).isSome ∧ prevValidatorKickout.get? v.accountId = none) ⊆
        validators.toFinset.filter (fun v => slashed.get? v.accountId = none) \
          validators.toFinset.filter (·.accountId ∈ exemptedValidators) := by
      intro v hv
      simp only [Finset.mem_filter, Finset.mem_sdiff, not_and] at hv ⊢
      obtain ⟨hslashed, hnot, -⟩ := hkicked _ hv.2.1
      exact ⟨⟨hv.1, hslashed⟩, fun _ => hnot⟩
    have hle := Finset.sum_le_sum_of_subset (f := (·.stake)) hkickedSub
    rw [hexemptedStake] at hkeep
    omega
  · -- every validator not kicked out before is exempted, so none is kicked out now
    have hzero : ∑ v ∈ validators.toFinset with ((saveMaxValidator decision
        scan.maxValidator).get? v.accountId).isSome ∧ prevValidatorKickout.get? v.accountId = none,
          v.stake = 0 := by
      apply Finset.sum_eq_zero
      intro v hv
      simp only [Finset.mem_filter] at hv
      obtain ⟨-, hnot, hmem⟩ := hkicked _ hv.2.1
      exact absurd (hall _ hmem hv.2.2) hnot
    omega

end Result

/-- Four validators of stake 30, 30, 30 and 10, indexed as `proposals_to_epoch_info` indexes
validators. -/
def fourEpochInfo : EpochInfo :=
  ⟨0, [⟨"alice", .ed25519 (Vector.replicate 32 0), 30⟩, ⟨"bob", .ed25519 (Vector.replicate 32 0), 30⟩,
      ⟨"carol", .ed25519 (Vector.replicate 32 0), 30⟩, ⟨"dave", .ed25519 (Vector.replicate 32 0), 10⟩],
    indexAccounts [⟨"alice", .ed25519 (Vector.replicate 32 0), 30⟩,
      ⟨"bob", .ed25519 (Vector.replicate 32 0), 30⟩, ⟨"carol", .ed25519 (Vector.replicate 32 0), 30⟩,
      ⟨"dave", .ed25519 (Vector.replicate 32 0), 10⟩],
    [0], [[0]], [], [], .empty, .empty, .empty, .empty, 0, 0, 56, Vector.replicate 32 0⟩

/-- The blocks of the four validators: `alice` produced none of her ten, `bob` five, `carol`
and `dave` all ten. -/
def fourBlockTracker : BTreeMap ℕ ValidatorStats :=
  (((BTreeMap.empty.insert 0 ⟨0, 10⟩).insert 1 ⟨5, 10⟩).insert 2 ⟨10, 10⟩).insert 3 ⟨10, 10⟩

/-- Two validators, `alice` with a stake of 100 and `bob` with 1, whose
`validator_to_index` sends both accounts to `alice`'s entry. -/
def misindexedEpochInfo : EpochInfo :=
  ⟨0, [⟨"alice", .ed25519 (Vector.replicate 32 0), 100⟩, ⟨"bob", .ed25519 (Vector.replicate 32 0), 1⟩],
    (BTreeMap.empty.insert "alice" 0).insert "bob" 0, [0, 1], [[0, 1]], [], [], .empty, .empty,
    .empty, .empty, 0, 0, 56, Vector.replicate 32 0⟩

end Nearcore.EpochManager
