import Nearcore.ValidatorSelectionEpochInfo

/-!
# The epoch info of `proposals_to_epoch_info` is well formed

Whatever the proposals, kick-outs and rewards, an epoch info that
`proposals_to_epoch_info` returns is well formed (`EpochInfo.WellFormed`): the
map `validator_to_index` numbers the validators in order, every settlement
names validators only, with `ChunkOnlyProducers` every block producer is also a
chunk producer, no fisherman or kicked-out account is a validator, fishermen
have distinct accounts, and `stake_change` records the stake of every validator
and fisherman and zero for every other account.  The one assumption is that the
fishermen of the last epoch have distinct accounts.

The proof follows the function.  `proposals_with_rollover` keeps
`RolloverInvariant`.  The block producers are a prefix of the chunk producers,
as both are a top of the same order and a proposal that passes the ratio test
of the block producers passes the smaller ratio of the chunk producers.  The
chunk producers and the proposals left split the rollover's proposals.
`assign_shards` puts every chunk producer into a shard, so settling the shards
gives every chunk producer an id and no other proposal one.
-/

namespace Nearcore.EpochManager

/-! ## `proposals_with_rollover` -/

section Rollover

variable (validatorKickout : BTreeMap AccountId ValidatorKickoutReason)

/-- What `proposals_with_rollover` keeps.  Every proposal is stored under its
account, which is not kicked out, with its stake as the stake change; every
fisherman has no proposal, is not kicked out, has its stake as the stake
change, and has an account of its own; any other account in `stake_change` has
a zero stake change. -/
structure RolloverInvariant (state : Rollover) : Prop where
  accountId_eq : ∀ a p, state.proposalsByAccount.get? a = some p → p.accountId = a
  stakeChange_proposal : ∀ a p, state.proposalsByAccount.get? a = some p →
    state.stakeChange.get? a = some p.stake
  proposal_not_kicked : ∀ a p, state.proposalsByAccount.get? a = some p →
    validatorKickout.get? a = none
  stakeChange_fisherman : ∀ f ∈ state.fishermen, state.stakeChange.get? f.accountId = some f.stake
  fisherman_no_proposal : ∀ f ∈ state.fishermen, state.proposalsByAccount.get? f.accountId = none
  fisherman_not_kicked : ∀ f ∈ state.fishermen, validatorKickout.get? f.accountId = none
  fishermen_nodup : (state.fishermen.map (·.accountId)).Nodup
  stakeChange_zero : ∀ a s, state.stakeChange.get? a = some s →
    state.proposalsByAccount.get? a = none → (∀ f ∈ state.fishermen, f.accountId ≠ a) → s = 0

theorem rolloverInvariant_start (stakeChange : BTreeMap AccountId ℕ)
    (hzero : ∀ a s, stakeChange.get? a = some s → s = 0) :
    RolloverInvariant validatorKickout ⟨.empty, stakeChange, []⟩ where
  accountId_eq := by simp
  stakeChange_proposal := by simp
  proposal_not_kicked := by simp
  stakeChange_fisherman := by simp
  fisherman_no_proposal := by simp
  fisherman_not_kicked := by simp
  fishermen_nodup := List.nodup_nil
  stakeChange_zero := fun a s hs _ _ => hzero a s hs

@[simp] theorem fishermen_rolloverProposal (state : Rollover) (p : ValidatorStake) :
    (rolloverProposal validatorKickout state p).fishermen = state.fishermen := by
  unfold rolloverProposal
  split <;> rfl

@[simp] theorem fishermen_rolloverValidator (validatorReward : BTreeMap AccountId ℕ)
    (state : Rollover) (r : ValidatorStake) :
    (rolloverValidator validatorReward validatorKickout state r).fishermen = state.fishermen := by
  unfold rolloverValidator
  split <;> rfl

@[simp] theorem proposalsByAccount_rolloverFisherman (state : Rollover) (r : ValidatorStake) :
    (rolloverFisherman validatorKickout state r).proposalsByAccount = state.proposalsByAccount := by
  unfold rolloverFisherman
  split
  · rfl
  · split <;> rfl

variable {validatorKickout}

theorem RolloverInvariant.zeroKicked {state : Rollover}
    (hinv : RolloverInvariant validatorKickout state) {a : AccountId}
    (hkicked : (validatorKickout.get? a).isSome) :
    RolloverInvariant validatorKickout { state with stakeChange := state.stakeChange.insert a 0 } := by
  -- no proposal and no fisherman is kicked out, so none has the account `a`
  have hne : ∀ a', validatorKickout.get? a' = none → a ≠ a' := by
    rintro a' hnone rfl
    rw [hnone] at hkicked
    cases hkicked
  constructor
  · exact hinv.accountId_eq
  · intro a' q hq
    rw [BTreeMap.get?_insert, if_neg (hne a' (hinv.proposal_not_kicked a' q hq))]
    exact hinv.stakeChange_proposal a' q hq
  · exact hinv.proposal_not_kicked
  · intro f hf
    rw [BTreeMap.get?_insert, if_neg (hne _ (hinv.fisherman_not_kicked f hf))]
    exact hinv.stakeChange_fisherman f hf
  · exact hinv.fisherman_no_proposal
  · exact hinv.fisherman_not_kicked
  · exact hinv.fishermen_nodup
  · intro a' s hs hnone hnot
    rw [BTreeMap.get?_insert] at hs
    split at hs
    · exact (Option.some.inj hs).symm
    · exact hinv.stakeChange_zero a' s hs hnone hnot

theorem RolloverInvariant.insertProposal {state : Rollover}
    (hinv : RolloverInvariant validatorKickout state) (hfish : state.fishermen = [])
    {p : ValidatorStake} (hkept : validatorKickout.get? p.accountId = none) :
    RolloverInvariant validatorKickout { state with
      proposalsByAccount := state.proposalsByAccount.insert p.accountId p
      stakeChange := state.stakeChange.insert p.accountId p.stake } := by
  constructor <;> simp only [hfish, List.not_mem_nil, IsEmpty.forall_iff, implies_true,
    List.map_nil, List.nodup_nil]
  · intro a q hq
    rw [BTreeMap.get?_insert] at hq
    split at hq
    · next heq => rw [← heq, ← Option.some.inj hq]
    · exact hinv.accountId_eq a q hq
  · intro a q hq
    rw [BTreeMap.get?_insert] at hq ⊢
    split at hq
    · next heq => rw [if_pos heq, ← Option.some.inj hq]
    · next hne =>
        rw [if_neg hne]
        exact hinv.stakeChange_proposal a q hq
  · intro a q hq
    rw [BTreeMap.get?_insert] at hq
    split at hq
    · next heq => rw [← heq, hkept]
    · exact hinv.proposal_not_kicked a q hq
  · intro a s hs hnone _
    rw [BTreeMap.get?_insert] at hs hnone
    split at hnone
    · cases hnone
    · next hne =>
        rw [if_neg hne] at hs
        exact hinv.stakeChange_zero a s hs hnone (by simp [hfish])

theorem RolloverInvariant.proposal {state : Rollover}
    (hinv : RolloverInvariant validatorKickout state) (hfish : state.fishermen = [])
    (p : ValidatorStake) :
    RolloverInvariant validatorKickout (rolloverProposal validatorKickout state p) := by
  unfold rolloverProposal
  split
  · next hkicked => exact hinv.zeroKicked hkicked
  · next hkept => exact hinv.insertProposal hfish (by simpa using hkept)

/-- A validator of the last epoch that is not kicked out stores a proposal of
its own account: its new one or its old stake, with the reward. -/
theorem rolloverValidator_of_not_kicked {state : Rollover}
    (hinv : RolloverInvariant validatorKickout state) (validatorReward : BTreeMap AccountId ℕ)
    {r : ValidatorStake} (hkept : validatorKickout.get? r.accountId = none) :
    ∃ p : ValidatorStake, p.accountId = r.accountId ∧
      rolloverValidator validatorReward validatorKickout state r = { state with
        proposalsByAccount := state.proposalsByAccount.insert p.accountId p
        stakeChange := state.stakeChange.insert p.accountId p.stake } := by
  have hbase : ((state.proposalsByAccount.get? r.accountId).getD r).accountId = r.accountId := by
    cases hq : state.proposalsByAccount.get? r.accountId with
    | none => rfl
    | some q => exact hinv.accountId_eq _ q hq
  unfold rolloverValidator
  rw [if_neg (by simp [hkept])]
  dsimp only
  set q := (state.proposalsByAccount.get? r.accountId).getD r
  split
  · next reward _ => exact ⟨{ q with stake := q.stake + reward }, hbase, by rw [← hbase]⟩
  · exact ⟨q, hbase, by rw [hbase]⟩

theorem RolloverInvariant.validator {state : Rollover}
    (hinv : RolloverInvariant validatorKickout state) (hfish : state.fishermen = [])
    (validatorReward : BTreeMap AccountId ℕ) (r : ValidatorStake) :
    RolloverInvariant validatorKickout (rolloverValidator validatorReward validatorKickout state r) := by
  by_cases hkicked : (validatorKickout.get? r.accountId).isSome
  · unfold rolloverValidator
    rw [if_pos hkicked]
    exact hinv.zeroKicked hkicked
  · have hkept : validatorKickout.get? r.accountId = none := by simpa using hkicked
    obtain ⟨p, hp, heq⟩ := rolloverValidator_of_not_kicked hinv validatorReward hkept
    rw [heq]
    exact hinv.insertProposal hfish (hp ▸ hkept)

theorem mem_fishermen_rolloverFisherman {state : Rollover} {r f : ValidatorStake}
    (hf : f ∈ (rolloverFisherman validatorKickout state r).fishermen) :
    f ∈ state.fishermen ∨ f = r := by
  unfold rolloverFisherman at hf
  split at hf
  · exact .inl hf
  · split at hf
    · simpa using hf
    · exact .inl hf

theorem RolloverInvariant.fisherman {state : Rollover}
    (hinv : RolloverInvariant validatorKickout state) {r : ValidatorStake}
    (hfresh : ∀ f ∈ state.fishermen, f.accountId ≠ r.accountId) :
    RolloverInvariant validatorKickout (rolloverFisherman validatorKickout state r) := by
  unfold rolloverFisherman
  split
  · next hkicked => exact hinv.zeroKicked hkicked
  · next hkept =>
      split
      · next hnone =>
          replace hkept : validatorKickout.get? r.accountId = none := by simpa using hkept
          replace hnone : state.proposalsByAccount.get? r.accountId = none := by simpa using hnone
          constructor
          · exact hinv.accountId_eq
          · intro a q hq
            have hne : r.accountId ≠ a := by
              rintro rfl
              rw [hnone] at hq
              cases hq
            rw [BTreeMap.get?_insert, if_neg hne]
            exact hinv.stakeChange_proposal a q hq
          · exact hinv.proposal_not_kicked
          · intro f hf
            rcases List.mem_append.mp hf with hf | hf
            · rw [BTreeMap.get?_insert, if_neg (Ne.symm (hfresh f hf))]
              exact hinv.stakeChange_fisherman f hf
            · rw [List.mem_singleton.mp hf, BTreeMap.get?_insert, if_pos rfl]
          · intro f hf
            rcases List.mem_append.mp hf with hf | hf
            · exact hinv.fisherman_no_proposal f hf
            · rw [List.mem_singleton.mp hf]
              exact hnone
          · intro f hf
            rcases List.mem_append.mp hf with hf | hf
            · exact hinv.fisherman_not_kicked f hf
            · rw [List.mem_singleton.mp hf]
              exact hkept
          · rw [List.map_append, List.nodup_append]
            refine ⟨hinv.fishermen_nodup, List.nodup_singleton _, ?_⟩
            intro a ha b hb hab
            obtain ⟨f, hf, rfl⟩ := List.mem_map.mp ha
            simp only [List.map_cons, List.map_nil, List.mem_singleton] at hb
            exact hfresh f hf (hab.trans hb)
          · intro a s hs hnone' hnot
            rw [BTreeMap.get?_insert] at hs
            split at hs
            · next heq => exact absurd heq (hnot r (by simp))
            · exact hinv.stakeChange_zero a s hs hnone' fun f hf => hnot f (by simp [hf])
      · exact hinv

theorem RolloverInvariant.foldl_proposal {state : Rollover}
    (hinv : RolloverInvariant validatorKickout state) (hfish : state.fishermen = [])
    (proposals : List ValidatorStake) :
    RolloverInvariant validatorKickout (proposals.foldl (rolloverProposal validatorKickout) state) ∧
      (proposals.foldl (rolloverProposal validatorKickout) state).fishermen = [] := by
  induction proposals generalizing state with
  | nil => exact ⟨hinv, hfish⟩
  | cons p rest ih =>
      exact ih (hinv.proposal hfish p) (by rw [fishermen_rolloverProposal, hfish])

theorem RolloverInvariant.foldl_validator {state : Rollover}
    (hinv : RolloverInvariant validatorKickout state) (hfish : state.fishermen = [])
    (validatorReward : BTreeMap AccountId ℕ) (validators : List ValidatorStake) :
    RolloverInvariant validatorKickout
      (validators.foldl (rolloverValidator validatorReward validatorKickout) state) ∧
      (validators.foldl (rolloverValidator validatorReward validatorKickout) state).fishermen =
        [] := by
  induction validators generalizing state with
  | nil => exact ⟨hinv, hfish⟩
  | cons r rest ih =>
      exact ih (hinv.validator hfish validatorReward r)
        (by rw [fishermen_rolloverValidator, hfish])

theorem RolloverInvariant.foldl_fisherman {state : Rollover}
    (hinv : RolloverInvariant validatorKickout state) {fishermen : List ValidatorStake}
    (hnodup : (fishermen.map (·.accountId)).Nodup)
    (hfresh : ∀ r ∈ fishermen, ∀ f ∈ state.fishermen, f.accountId ≠ r.accountId) :
    RolloverInvariant validatorKickout (fishermen.foldl (rolloverFisherman validatorKickout) state) := by
  induction fishermen generalizing state with
  | nil => exact hinv
  | cons r rest ih =>
      obtain ⟨hr, hrest⟩ := List.nodup_cons.mp hnodup
      refine ih (hinv.fisherman (hfresh r List.mem_cons_self)) hrest fun r' hr' f hf => ?_
      rcases mem_fishermen_rolloverFisherman hf with hf | rfl
      · exact hfresh r' (List.mem_cons_of_mem _ hr') f hf
      · intro heq
        apply hr
        exact List.mem_map.mpr ⟨r', hr', heq.symm⟩

/-- `proposals_with_rollover` as `proposals_to_epoch_info` calls it, with no
stake change and no fisherman yet, when the last epoch's fishermen have
distinct accounts. -/
theorem proposalsWithRollover_invariant (proposals : List ValidatorStake)
    {prevEpochInfo : EpochInfo} (validatorReward : BTreeMap AccountId ℕ)
    (hnodup : (prevEpochInfo.fishermen.map (·.accountId)).Nodup) :
    RolloverInvariant validatorKickout
      (proposalsWithRollover proposals prevEpochInfo validatorReward validatorKickout .empty []) := by
  have hstart := rolloverInvariant_start validatorKickout .empty (by simp)
  obtain ⟨hproposals, hfish⟩ := hstart.foldl_proposal rfl proposals
  obtain ⟨hvalidators, hfish'⟩ := hproposals.foldl_validator hfish validatorReward
    prevEpochInfo.validators
  exact hvalidators.foldl_fisherman hnodup (by simp [hfish'])

end Rollover

/-! ## Validator ids -/

/-- `to_index` maps the account of the `i`-th validator to `i`, and nothing
else: a bijection between the accounts and `0..validators.len()`. -/
def IndexOf (toIndex : BTreeMap AccountId ℕ) (validators : List ValidatorStake) : Prop :=
  ∀ a id, toIndex.get? a = some id ↔ ∃ h : id < validators.length, validators[id].accountId = a

theorem IndexOf.push {toIndex : BTreeMap AccountId ℕ} {validators : List ValidatorStake}
    (hidx : IndexOf toIndex validators) {v : ValidatorStake}
    (hfresh : toIndex.get? v.accountId = none) :
    IndexOf (toIndex.insert v.accountId validators.length) (validators ++ [v]) := by
  intro a id
  rw [BTreeMap.get?_insert]
  split
  · next heq =>
      subst heq
      constructor
      · rintro ⟨⟩
        exact ⟨by simp, by simp⟩
      · rintro ⟨hid, hacc⟩
        rcases Nat.lt_succ_iff_lt_or_eq.mp (by simpa using hid) with hlt | rfl
        · rw [List.getElem_append_left hlt] at hacc
          rw [(hidx _ id).mpr ⟨hlt, hacc⟩] at hfresh
          cases hfresh
        · rfl
  · next hne =>
      rw [hidx a id]
      constructor
      · rintro ⟨hid, hacc⟩
        exact ⟨by simp; omega, by rw [List.getElem_append_left hid]; exact hacc⟩
      · rintro ⟨hid, hacc⟩
        rcases Nat.lt_succ_iff_lt_or_eq.mp (by simpa using hid) with hlt | rfl
        · exact ⟨hlt, by rw [List.getElem_append_left hlt] at hacc; exact hacc⟩
        · simp at hacc
          exact absurd hacc hne

theorem IndexOf.lt {toIndex : BTreeMap AccountId ℕ} {validators : List ValidatorStake}
    (hidx : IndexOf toIndex validators) {a : AccountId} {id : ℕ} (h : toIndex.get? a = some id) :
    id < validators.length :=
  ((hidx a id).mp h).1

theorem IndexOf.get?_of_mem {toIndex : BTreeMap AccountId ℕ} {validators : List ValidatorStake}
    (hidx : IndexOf toIndex validators) {v : ValidatorStake} (hv : v ∈ validators) :
    ∃ id, toIndex.get? v.accountId = some id := by
  obtain ⟨id, hid, rfl⟩ := List.getElem_of_mem hv
  exact ⟨id, (hidx _ id).mpr ⟨hid, rfl⟩⟩

theorem indexAccounts_append_singleton (validators : List ValidatorStake) (v : ValidatorStake) :
    indexAccounts (validators ++ [v]) =
      (indexAccounts validators).insert v.accountId validators.length := by
  simp [indexAccounts, List.zipIdx_append]

theorem indexOf_indexAccounts {validators : List ValidatorStake}
    (hnodup : (validators.map (·.accountId)).Nodup) :
    IndexOf (indexAccounts validators) validators := by
  induction validators using List.reverseRecOn with
  | nil => simp [IndexOf, indexAccounts]
  | append_singleton validators v ih =>
      rw [List.map_append, List.nodup_append] at hnodup
      obtain ⟨hnodup, -, hdisjoint⟩ := hnodup
      have hidx := ih hnodup
      rw [indexAccounts_append_singleton]
      refine hidx.push ?_
      apply Option.eq_none_iff_forall_ne_some.mpr
      intro id hid
      obtain ⟨hlt, hacc⟩ := (hidx _ id).mp hid
      exact hdisjoint _ (List.mem_map.mpr ⟨_, List.getElem_mem hlt, hacc⟩) _ (by simp) rfl

/-! ### Settling the shards -/

/-- What settling keeps: `validator_to_index` numbers `all_validators`, `i` is
the next id, and every validator comes from `pool`. -/
structure SettleInvariant (pool : List ValidatorStake) (s : Settlement) : Prop where
  index : IndexOf s.validatorToIndex s.allValidators
  nextId_eq : s.nextId = s.allValidators.length
  mem_pool : ∀ v ∈ s.allValidators, v ∈ pool

/-- Settling only adds ids. -/
def Settlement.Extends (s s' : Settlement) : Prop :=
  (∀ a id, s.validatorToIndex.get? a = some id → s'.validatorToIndex.get? a = some id) ∧
    s.allValidators.length ≤ s'.allValidators.length

theorem Settlement.Extends.refl (s : Settlement) : s.Extends s :=
  ⟨fun _ _ h => h, le_refl _⟩

theorem Settlement.Extends.trans {s s' s'' : Settlement} (h : s.Extends s') (h' : s'.Extends s'') :
    s.Extends s'' :=
  ⟨fun a id hid => h'.1 a id (h.1 a id hid), h.2.trans h'.2⟩

section Settle

variable {pool : List ValidatorStake}

theorem SettleInvariant.validator {s : Settlement} (hinv : SettleInvariant pool s)
    {v : ValidatorStake} (hv : v ∈ pool) :
    SettleInvariant pool (settleValidator s v).1 ∧ s.Extends (settleValidator s v).1 ∧
      (settleValidator s v).1.validatorToIndex.get? v.accountId = some (settleValidator s v).2 := by
  unfold settleValidator
  split
  · next hnone =>
      refine ⟨⟨?_, by simp [hinv.nextId_eq], ?_⟩, ⟨fun a id hid => ?_, by simp⟩,
        by rw [BTreeMap.get?_insert, if_pos rfl]⟩
      · rw [hinv.nextId_eq]
        exact hinv.index.push hnone
      · intro w hw
        rcases List.mem_append.mp hw with hw | hw
        · exact hinv.mem_pool w hw
        · rw [List.mem_singleton.mp hw]
          exact hv
      · have hne : v.accountId ≠ a := by
          rintro rfl
          rw [hnone] at hid
          cases hid
        rw [BTreeMap.get?_insert, if_neg hne]
        exact hid
  · next id hid => exact ⟨hinv, Settlement.Extends.refl s, hid⟩

/-- The chunk producers of one shard get ids: each the id its account has
once the shard is settled. -/
theorem SettleInvariant.shard {s : Settlement} (hinv : SettleInvariant pool s)
    {shard : List ValidatorStake} (hshard : ∀ v ∈ shard, v ∈ pool) :
    SettleInvariant pool (settleShard s shard).1 ∧ s.Extends (settleShard s shard).1 ∧
      (∀ v ∈ shard, ∃ id ∈ (settleShard s shard).2,
        (settleShard s shard).1.validatorToIndex.get? v.accountId = some id) ∧
      ∀ id ∈ (settleShard s shard).2, ∃ a, (settleShard s shard).1.validatorToIndex.get? a = some id := by
  induction shard generalizing s with
  | nil => exact ⟨hinv, Settlement.Extends.refl s, by simp [settleShard], by simp [settleShard]⟩
  | cons v vs ih =>
      obtain ⟨hinv₁, hext₁, hid₁⟩ := hinv.validator (hshard v List.mem_cons_self)
      obtain ⟨hinv₂, hext₂, hmem₂, hids₂⟩ :=
        ih hinv₁ fun w hw => hshard w (List.mem_cons_of_mem _ hw)
      simp only [settleShard]
      refine ⟨hinv₂, hext₁.trans hext₂, ?_, ?_⟩
      · intro w hw
        rcases List.mem_cons.mp hw with rfl | hw
        · exact ⟨_, List.mem_cons_self, hext₂.1 _ _ hid₁⟩
        · obtain ⟨id, hid, hget⟩ := hmem₂ w hw
          exact ⟨id, List.mem_cons_of_mem _ hid, hget⟩
      · intro id hid
        rcases List.mem_cons.mp hid with rfl | hid
        · exact ⟨_, hext₂.1 _ _ hid₁⟩
        · exact hids₂ id hid

/-- All shards: every chunk producer of a shard has its final id in that
shard's list, and every id listed is the id of some account. -/
theorem SettleInvariant.shards {s : Settlement} (hinv : SettleInvariant pool s)
    {shards : List (List ValidatorStake)} (hshards : ∀ shard ∈ shards, ∀ v ∈ shard, v ∈ pool) :
    SettleInvariant pool (settleShards s shards).1 ∧ s.Extends (settleShards s shards).1 ∧
      (∀ shard ∈ shards, ∀ v ∈ shard, ∃ ids ∈ (settleShards s shards).2, ∃ id ∈ ids,
        (settleShards s shards).1.validatorToIndex.get? v.accountId = some id) ∧
      ∀ ids ∈ (settleShards s shards).2, ∀ id ∈ ids,
        ∃ a, (settleShards s shards).1.validatorToIndex.get? a = some id := by
  induction shards generalizing s with
  | nil => exact ⟨hinv, Settlement.Extends.refl s, by simp [settleShards], by simp [settleShards]⟩
  | cons shard rest ih =>
      obtain ⟨hinv₁, hext₁, hmem₁, hids₁⟩ := hinv.shard (hshards shard List.mem_cons_self)
      obtain ⟨hinv₂, hext₂, hmem₂, hids₂⟩ :=
        ih hinv₁ fun sh hsh => hshards sh (List.mem_cons_of_mem _ hsh)
      simp only [settleShards]
      refine ⟨hinv₂, hext₁.trans hext₂, ?_, ?_⟩
      · intro sh hsh w hw
        rcases List.mem_cons.mp hsh with rfl | hsh
        · obtain ⟨id, hid, hget⟩ := hmem₁ w hw
          exact ⟨_, List.mem_cons_self, id, hid, hext₂.1 _ _ hget⟩
        · obtain ⟨ids, hids, id, hid, hget⟩ := hmem₂ sh hsh w hw
          exact ⟨ids, List.mem_cons_of_mem _ hids, id, hid, hget⟩
      · intro ids hids id hid
        rcases List.mem_cons.mp hids with rfl | hids
        · obtain ⟨a, ha⟩ := hids₁ id hid
          exact ⟨a, hext₂.1 _ _ ha⟩
        · exact hids₂ ids hids id hid

end Settle

/-! ## The block producers are chunk producers -/

/-- A run of the selection loop at a lower ratio and with more turns keeps at
least as many proposals: each proposal kept at the higher ratio passes the
lower one. -/
theorem selectLoop_length_le {r r' : ℚ} (hr : r' ≤ r) :
    ∀ {n n' totalStake : ℕ} {validators proposals a b rest rest' : List ValidatorStake}
      {t t' : ℕ}, n ≤ n' →
      selectLoop r n totalStake validators proposals = some (a, t, rest) →
      selectLoop r' n' totalStake validators proposals = some (b, t', rest') →
      a.length ≤ b.length := by
  intro n
  induction n with
  | zero =>
      intro n' totalStake validators proposals a b rest rest' t t' _ ha hb
      simp only [selectLoop, Option.some.injEq, Prod.mk.injEq] at ha
      obtain ⟨chosen, rfl, -⟩ := selectLoop_spec hb
      rw [← ha.1, List.length_append]
      omega
  | succ n ih =>
      intro n' totalStake validators proposals a b rest rest' t t' hn ha hb
      obtain ⟨n', rfl⟩ : ∃ m, n' = m + 1 := ⟨n' - 1, by omega⟩
      cases proposals with
      | nil => simp [selectLoop] at ha
      | cons p ps =>
          simp only [selectLoop] at ha hb
          split at ha
          · cases ha
          · next hpos =>
              rw [if_neg hpos] at hb
              split at ha
              · -- `p` is kept at the higher ratio, so also at the lower one
                next hkeep =>
                  rw [if_pos (lt_of_le_of_lt hr hkeep)] at hb
                  exact ih (by omega) ha hb
              · -- the higher ratio stops here
                simp only [Option.some.injEq, Prod.mk.injEq] at ha
                rw [← ha.1]
                split at hb
                · obtain ⟨chosen, rfl, -⟩ := selectLoop_spec hb
                  simp
                · simp only [Option.some.injEq, Prod.mk.injEq] at hb
                  rw [← hb.1]

/-- `select_validators` returns what its loop kept and the heap it left. -/
theorem selectValidators_loop {proposals validators rest : List ValidatorStake}
    {maxNumberSelected threshold : ℕ} {r : ℚ} {fix : Bool}
    (h : selectValidators proposals maxNumberSelected r fix = some ((validators, threshold), rest)) :
    ∃ totalStake, selectLoop r (min maxNumberSelected proposals.length) 0 [] proposals =
      some (validators, totalStake, rest) := by
  unfold selectValidators at h
  obtain ⟨⟨kept, total, heap⟩, hloop, h⟩ := Option.bind_eq_some_iff.mp h
  dsimp only at h
  have hout : kept = validators ∧ heap = rest := by
    split at h
    · obtain ⟨last, -, h⟩ := Option.bind_eq_some_iff.mp h
      simp only [pure, Option.some.injEq, Prod.mk.injEq] at h
      exact ⟨h.1.1, h.2⟩
    · split at h
      · split at h
        · cases h
        · simp only [pure, Option.some.injEq, Prod.mk.injEq] at h
          exact ⟨h.1.1, h.2⟩
      · simp only [pure, Option.some.injEq, Prod.mk.injEq] at h
        exact ⟨h.1.1, h.2⟩
  rw [← hout.1, ← hout.2]
  exact ⟨total, hloop⟩

/-- `select_validators` keeps a prefix of the heap and leaves the rest. -/
theorem selectValidators_split {proposals validators rest : List ValidatorStake}
    {maxNumberSelected threshold : ℕ} {r : ℚ} {fix : Bool}
    (h : selectValidators proposals maxNumberSelected r fix = some ((validators, threshold), rest)) :
    validators ++ rest = proposals := by
  obtain ⟨total, hloop⟩ := selectValidators_loop h
  obtain ⟨chosen, hkept, hheap, -⟩ := selectLoop_spec hloop
  rw [hkept, List.nil_append, hheap]

/-- Two selections from one heap, the second with at least as many seats and
at most the ratio of the first: what the first keeps, the second keeps. -/
theorem selectValidators_prefix {proposals a b rest rest' : List ValidatorStake}
    {n n' t t' : ℕ} {r r' : ℚ} {fix : Bool} (hn : n ≤ n') (hr : r' ≤ r)
    (ha : selectValidators proposals n r fix = some ((a, t), rest))
    (hb : selectValidators proposals n' r' fix = some ((b, t'), rest')) :
    a <+: b := by
  obtain ⟨total, hloopA⟩ := selectValidators_loop ha
  obtain ⟨total', hloopB⟩ := selectValidators_loop hb
  have hlen : a.length ≤ b.length :=
    selectLoop_length_le hr (min_le_min_right _ hn) hloopA hloopB
  exact List.prefix_of_prefix_length_le ⟨rest, selectValidators_split ha⟩
    ⟨rest', selectValidators_split hb⟩ hlen

/-! ## The proposals left -/

section Leftover

variable {fishermenThreshold threshold : ℕ} {prevEpochInfo : EpochInfo}

theorem processLeftover_cases {st st' : Leftover} {p : ValidatorStake}
    (h : processLeftover fishermenThreshold prevEpochInfo threshold st p = some st') :
    (fishermenThreshold ≤ p.stake ∧ st' = { st with fishermen := st.fishermen ++ [p] }) ∨
      (p.stake < fishermenThreshold ∧ st'.fishermen = st.fishermen ∧
        st'.stakeChange = st.stakeChange.insert p.accountId 0 ∧
        ∀ a ∈ st'.validatorKickout.keys, a ∈ st.validatorKickout.keys ∨ a = p.accountId) := by
  unfold processLeftover at h
  split at h
  · next hfisherman => exact .inl ⟨hfisherman, (Option.some.inj h).symm⟩
  · next hlow =>
      split at h
      · cases h
      · split at h
        · cases h
          refine .inr ⟨by omega, rfl, rfl, fun a ha => ?_⟩
          obtain ⟨reason, hreason⟩ := (BTreeMap.mem_keys_iff _ a).mp ha
          rw [BTreeMap.get?_insert] at hreason
          split at hreason
          · next heq => exact .inr heq.symm
          · exact .inl ((BTreeMap.mem_keys_iff _ a).mpr ⟨reason, hreason⟩)
        · cases h
          exact .inr ⟨by omega, rfl, rfl, fun a ha => .inl ha⟩

/-- The loop over the proposals left: those with enough stake become
fishermen, the others get a zero stake change, any other stake change stays,
and only the others can be kicked out. -/
theorem foldlM_processLeftover :
    ∀ {leftover : List ValidatorStake} {st st' : Leftover},
      leftover.foldlM (processLeftover fishermenThreshold prevEpochInfo threshold) st = some st' →
      st'.fishermen = st.fishermen ++ leftover.filter (fun p => fishermenThreshold ≤ p.stake) ∧
      (∀ p ∈ leftover, p.stake < fishermenThreshold → st'.stakeChange.get? p.accountId = some 0) ∧
      (∀ a, (∀ p ∈ leftover, p.accountId = a → fishermenThreshold ≤ p.stake) →
        st'.stakeChange.get? a = st.stakeChange.get? a) ∧
      ∀ a ∈ st'.validatorKickout.keys, a ∈ st.validatorKickout.keys ∨
        ∃ p ∈ leftover, p.accountId = a ∧ p.stake < fishermenThreshold
  | [], st, st', h => by
      cases h
      exact ⟨by simp, by simp, fun _ _ => rfl, fun a ha => .inl ha⟩
  | p :: ps, st, st', h => by
      rw [List.foldlM_cons] at h
      obtain ⟨st₁, hstep, hrest⟩ := Option.bind_eq_some_iff.mp h
      obtain ⟨hfish, hzero, hkeep, hkicked⟩ := foldlM_processLeftover hrest
      rcases processLeftover_cases hstep with ⟨hfisherman, rfl⟩ | ⟨hlow, hfish₁, hstake₁, hkicked₁⟩
      · -- `p` becomes a fisherman
        refine ⟨by simp [hfish, hfisherman], ?_, ?_, ?_⟩
        · intro q hq hqlow
          rcases List.mem_cons.mp hq with rfl | hq
          · omega
          · exact hzero q hq hqlow
        · exact fun a ha => hkeep a fun q hq => ha q (List.mem_cons_of_mem _ hq)
        · intro a ha
          rcases hkicked a ha with ha | ⟨q, hq, hqa⟩
          · exact .inl ha
          · exact .inr ⟨q, List.mem_cons_of_mem _ hq, hqa⟩
      · -- `p` gets a zero stake change
        refine ⟨by simp [hfish, hfish₁, Nat.not_le.mpr hlow], ?_, ?_, ?_⟩
        · intro q hq hqlow
          rcases List.mem_cons.mp hq with rfl | hq
          · by_cases hlater : ∀ q' ∈ ps, q'.accountId = q.accountId → fishermenThreshold ≤ q'.stake
            · rw [hkeep _ hlater, hstake₁, BTreeMap.get?_insert, if_pos rfl]
            · push Not at hlater
              obtain ⟨q', hq', hacc, hq'low⟩ := hlater
              rw [← hacc]
              exact hzero q' hq' hq'low
          · exact hzero q hq hqlow
        · intro a ha
          have hne : p.accountId ≠ a := by
            intro heq
            have := ha p List.mem_cons_self heq
            omega
          rw [hkeep a fun q hq => ha q (List.mem_cons_of_mem _ hq), hstake₁, BTreeMap.get?_insert,
            if_neg hne]
        · intro a ha
          rcases hkicked a ha with ha | ⟨q, hq, hqa⟩
          · rcases hkicked₁ a ha with ha | rfl
            · exact .inl ha
            · exact .inr ⟨p, List.mem_cons_self, rfl, hlow⟩
          · exact .inr ⟨q, List.mem_cons_of_mem _ hq, hqa⟩

end Leftover

/-! ## The chunk producers and the proposals left split the proposals -/

section Split

variable {validatorKickout : BTreeMap AccountId ValidatorKickoutReason}

/-- The proposals of the rollover are the values of a map keyed by their
accounts, so their accounts are its keys. -/
theorem RolloverInvariant.map_accountId_values {rollover : Rollover}
    (hinv : RolloverInvariant validatorKickout rollover) :
    rollover.proposalsByAccount.values.map (·.accountId) = rollover.proposalsByAccount.keys := by
  simp only [BTreeMap.values, BTreeMap.keys, List.map_map]
  apply List.map_congr_left
  intro e he
  exact hinv.accountId_eq e.1 e.2 ((BTreeMap.get?_eq_some_iff _ _ _).mpr he)

/-- The chunk producers `C` and the proposals left `L` of a rollover. -/
structure Split (validatorKickout : BTreeMap AccountId ValidatorKickoutReason)
    (rollover : Rollover) (C L : List ValidatorStake) : Prop where
  rollover_invariant : RolloverInvariant validatorKickout rollover
  perm : (C ++ L).Perm rollover.proposalsByAccount.values

namespace Split

variable {rollover : Rollover} {C L : List ValidatorStake}

theorem get?_of_mem (h : Split validatorKickout rollover C L) {v : ValidatorStake}
    (hv : v ∈ C ++ L) : rollover.proposalsByAccount.get? v.accountId = some v := by
  obtain ⟨a, ha⟩ := (BTreeMap.mem_values_iff _ v).mp (h.perm.mem_iff.mp hv)
  rw [h.rollover_invariant.accountId_eq a v ha]
  exact ha

theorem accountId_nodup (h : Split validatorKickout rollover C L) :
    ((C ++ L).map (·.accountId)).Nodup := by
  rw [(h.perm.map _).nodup_iff, h.rollover_invariant.map_accountId_values]
  exact BTreeMap.keys_nodup _

theorem eq_of_accountId_eq (h : Split validatorKickout rollover C L) {v w : ValidatorStake}
    (hv : v ∈ C ++ L) (hw : w ∈ C ++ L) (hacc : v.accountId = w.accountId) : v = w := by
  have hget := h.get?_of_mem hv
  rw [hacc, h.get?_of_mem hw] at hget
  exact (Option.some.inj hget).symm

theorem accountId_ne (h : Split validatorKickout rollover C L) {c l : ValidatorStake}
    (hc : c ∈ C) (hl : l ∈ L) : c.accountId ≠ l.accountId := by
  intro hacc
  have hnodup := h.accountId_nodup
  rw [List.map_append, List.nodup_append] at hnodup
  exact hnodup.2.2 _ (List.mem_map_of_mem hc) _ (List.mem_map_of_mem hl) hacc

theorem fisherman_accountId_ne (h : Split validatorKickout rollover C L) {f v : ValidatorStake}
    (hf : f ∈ rollover.fishermen) (hv : v ∈ C ++ L) : f.accountId ≠ v.accountId := by
  intro hacc
  have hnone := h.rollover_invariant.fisherman_no_proposal f hf
  rw [hacc, h.get?_of_mem hv] at hnone
  cases hnone

theorem kicked_accountId_ne (h : Split validatorKickout rollover C L) {v : ValidatorStake}
    (hv : v ∈ C ++ L) {a : AccountId} (ha : a ∈ validatorKickout.keys) : v.accountId ≠ a := by
  rintro rfl
  have hnone := h.rollover_invariant.proposal_not_kicked _ v (h.get?_of_mem hv)
  rw [BTreeMap.get?_eq_none_iff] at hnone
  exact hnone ha

/-! ### What the loop over the proposals left makes of the split -/

section Outcome

variable (h : Split validatorKickout rollover C L) {fishermenThreshold threshold : ℕ}
  {prevEpochInfo : EpochInfo} {leftover : Leftover}
  (hloop : L.foldlM (processLeftover fishermenThreshold prevEpochInfo threshold)
    ⟨rollover.stakeChange, rollover.fishermen, validatorKickout⟩ = some leftover)
include h hloop

theorem fisherman_not_chosen : ∀ f ∈ leftover.fishermen, ∀ c ∈ C, f.accountId ≠ c.accountId := by
  intro f hf c hc
  rw [(foldlM_processLeftover hloop).1] at hf
  rcases List.mem_append.mp hf with hf | hf
  · exact h.fisherman_accountId_ne hf (List.mem_append_left _ hc)
  · exact (h.accountId_ne hc (List.mem_of_mem_filter hf)).symm

theorem fishermen_nodup : (leftover.fishermen.map (·.accountId)).Nodup := by
  rw [(foldlM_processLeftover hloop).1, List.map_append, List.nodup_append]
  have hleft : (L.map (·.accountId)).Nodup := by
    have hnodup := h.accountId_nodup
    rw [List.map_append] at hnodup
    exact hnodup.sublist (List.sublist_append_right _ _)
  refine ⟨h.rollover_invariant.fishermen_nodup, hleft.sublist (List.filter_sublist.map _), ?_⟩
  intro a ha b hb
  obtain ⟨f, hf, rfl⟩ := List.mem_map.mp ha
  obtain ⟨l, hl, rfl⟩ := List.mem_map.mp hb
  exact h.fisherman_accountId_ne hf (List.mem_append_right _ (List.mem_of_mem_filter hl))

theorem fisherman_ne_of_low {p : ValidatorStake} (hp : p ∈ L) (hlow : p.stake < fishermenThreshold) :
    ∀ f ∈ leftover.fishermen, f.accountId ≠ p.accountId := by
  intro f hf hacc
  rw [(foldlM_processLeftover hloop).1] at hf
  rcases List.mem_append.mp hf with hf | hf
  · exact h.fisherman_accountId_ne hf (List.mem_append_right _ hp) hacc
  · obtain ⟨hfL, hfstake⟩ := List.mem_filter.mp hf
    rw [h.eq_of_accountId_eq (List.mem_append_right _ hfL) (List.mem_append_right _ hp) hacc]
      at hfstake
    simp only [decide_eq_true_eq] at hfstake
    omega

theorem kicked_not_chosen_or_fisherman :
    ∀ a ∈ leftover.validatorKickout.keys,
      (∀ c ∈ C, c.accountId ≠ a) ∧ ∀ f ∈ leftover.fishermen, f.accountId ≠ a := by
  intro a ha
  rcases (foldlM_processLeftover hloop).2.2.2 a ha with hkicked | ⟨p, hp, rfl, hlow⟩
  · -- kicked out before the selection
    refine ⟨fun c hc => h.kicked_accountId_ne (List.mem_append_left _ hc) hkicked, ?_⟩
    intro f hf
    rw [(foldlM_processLeftover hloop).1] at hf
    rcases List.mem_append.mp hf with hf | hf
    · intro hacc
      have hnone := h.rollover_invariant.fisherman_not_kicked f hf
      rw [hacc, BTreeMap.get?_eq_none_iff] at hnone
      exact hnone hkicked
    · exact h.kicked_accountId_ne (List.mem_append_right _ (List.mem_of_mem_filter hf)) hkicked
  · -- kicked out for too little stake
    exact ⟨fun c hc => h.accountId_ne hc hp, h.fisherman_ne_of_low hloop hp hlow⟩

/-- The stake change of every account: the stake of the chunk producer or the
fisherman it belongs to, and zero for any other account. -/
theorem stakeChange_eq (a : AccountId) (s : ℕ) (hs : leftover.stakeChange.get? a = some s) :
    (∃ c ∈ C, c.accountId = a ∧ s = c.stake) ∨
      (∃ f ∈ leftover.fishermen, f.accountId = a ∧ s = f.stake) ∨
      ((∀ c ∈ C, c.accountId ≠ a) ∧ (∀ f ∈ leftover.fishermen, f.accountId ≠ a) ∧ s = 0) := by
  obtain ⟨hfish, hzero, hkeep, -⟩ := foldlM_processLeftover hloop
  have hinv := h.rollover_invariant
  by_cases hlow : ∃ p ∈ L, p.accountId = a ∧ p.stake < fishermenThreshold
  · -- a proposal left with too little stake: zero
    obtain ⟨p, hp, rfl, hplow⟩ := hlow
    rw [hzero p hp hplow] at hs
    exact .inr (.inr ⟨fun c hc => h.accountId_ne hc hp, h.fisherman_ne_of_low hloop hp hplow,
      (Option.some.inj hs).symm⟩)
  · push Not at hlow
    rw [hkeep a fun p hp hacc => hlow p hp hacc] at hs
    cases hproposal : rollover.proposalsByAccount.get? a with
    | some v =>
        have hva := hinv.accountId_eq a v hproposal
        rw [hinv.stakeChange_proposal a v hproposal] at hs
        have hv : v ∈ C ++ L :=
          h.perm.mem_iff.mpr ((BTreeMap.mem_values_iff _ v).mpr ⟨a, hproposal⟩)
        rcases List.mem_append.mp hv with hv | hv
        · exact .inl ⟨v, hv, hva, (Option.some.inj hs).symm⟩
        · refine .inr (.inl ⟨v, ?_, hva, (Option.some.inj hs).symm⟩)
          rw [hfish]
          exact List.mem_append_right _ (List.mem_filter.mpr ⟨hv, by simpa using hlow v hv hva⟩)
    | none =>
        by_cases hfisherman : ∃ f ∈ rollover.fishermen, f.accountId = a
        · -- a fisherman of the last epoch that stays one
          obtain ⟨f, hf, rfl⟩ := hfisherman
          rw [hinv.stakeChange_fisherman f hf] at hs
          refine .inr (.inl ⟨f, ?_, rfl, (Option.some.inj hs).symm⟩)
          rw [hfish]
          exact List.mem_append_left _ hf
        · -- any other account: zero
          push Not at hfisherman
          have hnot : ∀ v ∈ C ++ L, v.accountId ≠ a := by
            intro v hv hva
            rw [← hva, h.get?_of_mem hv] at hproposal
            cases hproposal
          refine .inr (.inr ⟨fun c hc => hnot c (List.mem_append_left _ hc), ?_,
            hinv.stakeChange_zero a s hs hproposal hfisherman⟩)
          intro f hf
          rw [hfish] at hf
          rcases List.mem_append.mp hf with hf | hf
          · exact hfisherman f hf
          · exact hnot f (List.mem_append_right _ (List.mem_of_mem_filter hf))

end Outcome

end Split

end Split

/-! ## The chunk producers' settlement -/

theorem mem_of_roundRobin {blockProducersSettlement : List ℕ} :
    ∀ {count id id' : ℕ} {ids : List ℕ},
      roundRobin blockProducersSettlement count id = some (ids, id') →
      ∀ x ∈ ids, x ∈ blockProducersSettlement
  | 0, _, _, _, h => by
      cases h
      simp
  | count + 1, id, id', ids, h => by
      simp only [roundRobin] at h
      obtain ⟨res, hres, h⟩ := Option.bind_eq_some_iff.mp h
      obtain ⟨⟨rest, id''⟩, hrest, h⟩ := Option.bind_eq_some_iff.mp h
      simp only [pure, Option.some.injEq, Prod.mk.injEq] at h
      obtain ⟨rfl, rfl⟩ := h
      intro x hx
      rcases List.mem_cons.mp hx with rfl | hx
      · exact List.mem_of_getElem? hres
      · exact mem_of_roundRobin hrest x hx

theorem mem_of_roundRobinShards {numBlockProducerSeatsPerShard blockProducersSettlement : List ℕ} :
    ∀ {shardIds : List ℕ} {id : ℕ} {settlement : List (List ℕ)},
      roundRobinShards numBlockProducerSeatsPerShard blockProducersSettlement shardIds id =
        some settlement →
      ∀ ids ∈ settlement, ∀ x ∈ ids, x ∈ blockProducersSettlement
  | [], _, _, h => by
      cases h
      simp
  | shardId :: shardIds, id, settlement, h => by
      simp only [roundRobinShards] at h
      obtain ⟨seats, -, h⟩ := Option.bind_eq_some_iff.mp h
      obtain ⟨⟨ids, id'⟩, hids, h⟩ := Option.bind_eq_some_iff.mp h
      obtain ⟨rest, hrest, h⟩ := Option.bind_eq_some_iff.mp h
      cases h
      intro ids' hids'
      rcases List.mem_cons.mp hids' with rfl | hids'
      · exact mem_of_roundRobin hids
      · exact mem_of_roundRobinShards hrest ids' hids'

/-- Settling the chunk producers from the block producers' settlement `s₀`:
the ids stay a numbering of validators from `pool`, every id listed is a
validator's, and with `ChunkOnlyProducers` every chunk producer has its id in
some shard's list; without, nothing is added. -/
theorem settleChunkProducers_spec {epochConfig : EpochConfig} {chunkOnly : Bool} {fuel : ℕ}
    {pool chunkProducers : List ValidatorStake} {blockProducersSettlement : List ℕ}
    {s₀ s : Settlement} {chunkProducersSettlement : List (List ℕ)}
    (hinv : SettleInvariant pool s₀) (hpool : ∀ v ∈ chunkProducers, v ∈ pool)
    (hbps : ∀ id ∈ blockProducersSettlement, id < s₀.allValidators.length)
    (h : settleChunkProducers epochConfig chunkOnly fuel s₀ blockProducersSettlement chunkProducers =
      some (.ok (s, chunkProducersSettlement))) :
    SettleInvariant pool s ∧ s₀.Extends s ∧
      (∀ ids ∈ chunkProducersSettlement, ∀ id ∈ ids, id < s.allValidators.length) ∧
      (chunkOnly = true → ∀ v ∈ chunkProducers,
        ∃ ids ∈ chunkProducersSettlement, ∃ id ∈ ids, s.validatorToIndex.get? v.accountId = some id) ∧
      (chunkOnly = false → s = s₀) := by
  unfold settleChunkProducers at h
  split at h
  · next hchunk =>
      split at h
      · cases h
      · cases h
      · next shardAssignment hassign =>
          have hsettled : settleShards s₀ shardAssignment = (s, chunkProducersSettlement) :=
            Except.ok.inj (Option.some.inj h)
          have hshards : ∀ shard ∈ shardAssignment, ∀ v ∈ shard, v ∈ pool :=
            fun shard hshard v hv => hpool v (assignShards_mem hassign shard hshard v hv)
          obtain ⟨hinv', hext, hcover, hids⟩ := hinv.shards hshards
          rw [hsettled] at hinv' hext hcover hids
          refine ⟨hinv', hext, fun ids hids' id hid => ?_, fun _ v hv => ?_, fun hfalse => ?_⟩
          · obtain ⟨a, ha⟩ := hids ids hids' id hid
            exact hinv'.index.lt ha
          · obtain ⟨shard, hshard, hvshard⟩ := assignShards_covers hassign v hv
            exact hcover shard hshard v hvshard
          · rw [hchunk] at hfalse
            cases hfalse
  · next hchunk =>
      split at h
      · cases h
      · obtain ⟨settlement, hround, hok⟩ := Option.map_eq_some_iff.mp h
        simp only [Except.ok.injEq, Prod.mk.injEq] at hok
        obtain ⟨rfl, rfl⟩ := hok
        refine ⟨hinv, Settlement.Extends.refl _, fun ids hids id hid => ?_, fun htrue => ?_,
          fun _ => rfl⟩
        · exact hbps id (mem_of_roundRobinShards hround ids hids id hid)
        · simp [htrue] at hchunk

/-! ## `proposals_to_epoch_info` -/

theorem EpochConfig.minStakeRatio_nonneg (epochConfig : EpochConfig) :
    0 ≤ epochConfig.minStakeRatio := by
  unfold EpochConfig.minStakeRatio
  positivity

/-- `proposals_to_epoch_info` taken apart where it returns `Ok`: the block
producers, the chunk producers `C` and the proposals left `L` from the
selection, the loop over `L`, and the settlement of the chunk producers. -/
theorem proposalsToEpochInfo_eq_ok {epochConfig : EpochConfig} {rngSeed : Vector UInt8 32}
    {prevEpochInfo : EpochInfo} {proposals : List ValidatorStake}
    {validatorKickout : BTreeMap AccountId ValidatorKickoutReason}
    {validatorReward : BTreeMap AccountId ℕ} {mintedAmount nextVersion lastVersion : ℕ}
    {protocolFeatureFixStakingThreshold : Bool} {fuel : ℕ} {info : EpochInfo}
    (hok : proposalsToEpochInfo epochConfig rngSeed prevEpochInfo proposals validatorKickout
      validatorReward mintedAmount nextVersion lastVersion protocolFeatureFixStakingThreshold fuel =
        some (.ok info)) :
    ∃ (bp bpRest C L : List ValidatorStake) (bpStakeThreshold threshold : ℕ) (leftover : Leftover)
      (settlement : Settlement) (chunkProducersSettlement : List (List ℕ)),
      selectValidators (orderProposals (proposalsWithRollover proposals prevEpochInfo
          validatorReward validatorKickout .empty []).proposalsByAccount.values)
        epochConfig.numBlockProducerSeats epochConfig.minStakeRatio
        (fixStakingThreshold protocolFeatureFixStakingThreshold lastVersion) =
          some ((bp, bpStakeThreshold), bpRest) ∧
      (chunkOnlyProducers nextVersion = true → ∃ cpStakeThreshold,
        selectChunkProducers (orderProposals (proposalsWithRollover proposals prevEpochInfo
            validatorReward validatorKickout .empty []).proposalsByAccount.values)
          (epochConfig.numBlockProducerSeats +
            epochConfig.validatorSelectionConfig.numChunkOnlyProducerSeats)
          epochConfig.minStakeRatio epochConfig.numShards
          (fixStakingThreshold protocolFeatureFixStakingThreshold lastVersion) =
            some ((C, cpStakeThreshold), L)) ∧
      (chunkOnlyProducers nextVersion = false → C = bp ∧ L = bpRest) ∧
      L.foldlM (processLeftover epochConfig.fishermenThreshold prevEpochInfo threshold)
        ⟨(proposalsWithRollover proposals prevEpochInfo validatorReward validatorKickout .empty
            []).stakeChange,
          (proposalsWithRollover proposals prevEpochInfo validatorReward validatorKickout .empty
            []).fishermen, validatorKickout⟩ = some leftover ∧
      settleChunkProducers epochConfig (chunkOnlyProducers nextVersion) fuel
        ⟨indexAccounts bp, bp, bp.length⟩ (List.range bp.length) C =
          some (.ok (settlement, chunkProducersSettlement)) ∧
      info.validators = settlement.allValidators ∧
      info.validatorToIndex = settlement.validatorToIndex ∧
      info.blockProducersSettlement = List.range bp.length ∧
      info.chunkProducersSettlement = chunkProducersSettlement ∧
      info.fishermen = leftover.fishermen ∧ info.stakeChange = leftover.stakeChange ∧
      info.validatorKickout = leftover.validatorKickout := by
  unfold proposalsToEpochInfo at hok
  obtain ⟨⟨⟨bp, bpStakeThreshold⟩, bpRest⟩, hbp, hok⟩ := Option.bind_eq_some_iff.mp hok
  dsimp only at hok
  obtain ⟨⟨L, C, cpStakeThreshold⟩, hcp, hok⟩ := Option.bind_eq_some_iff.mp hok
  dsimp only at hok
  obtain ⟨leftover, hloop, hok⟩ := Option.bind_eq_some_iff.mp hok
  obtain ⟨settled, hsettled, hok⟩ := Option.bind_eq_some_iff.mp hok
  rcases settled with e | ⟨settlement, chunkProducersSettlement⟩
  · cases hok
  · simp only [pure, Option.some.injEq, Except.ok.injEq] at hok
    subst hok
    refine ⟨bp, bpRest, C, L, bpStakeThreshold, _, leftover, settlement, chunkProducersSettlement,
      hbp, fun hchunk => ?_, fun hchunk => ?_, hloop, hsettled, rfl, rfl, rfl, rfl, rfl, rfl, rfl⟩
    · rw [if_pos hchunk] at hcp
      obtain ⟨⟨⟨C', cpStakeThreshold'⟩, L'⟩, hselect, hmap⟩ := Option.map_eq_some_iff.mp hcp
      simp only [Prod.mk.injEq] at hmap
      obtain ⟨rfl, rfl, rfl⟩ := hmap
      exact ⟨_, hselect⟩
    · rw [if_neg (by simp [hchunk])] at hcp
      simp only [Option.some.injEq, Prod.mk.injEq] at hcp
      exact ⟨hcp.2.1.symm, hcp.1.symm⟩

/-- A well-formed epoch info, for a protocol version with or without
`ChunkOnlyProducers`. -/
structure EpochInfo.WellFormed (info : EpochInfo) (chunkOnly : Bool) : Prop where
  validatorToIndex : IndexOf info.validatorToIndex info.validators
  blockProducer_lt : ∀ id ∈ info.blockProducersSettlement, id < info.validators.length
  chunkProducer_lt : ∀ ids ∈ info.chunkProducersSettlement, ∀ id ∈ ids, id < info.validators.length
  blockProducer_chunkProducer : chunkOnly = true →
    ∀ id ∈ info.blockProducersSettlement, ∃ ids ∈ info.chunkProducersSettlement, id ∈ ids
  fisherman_not_validator : ∀ f ∈ info.fishermen, ∀ v ∈ info.validators, f.accountId ≠ v.accountId
  fishermen_nodup : (info.fishermen.map (·.accountId)).Nodup
  kicked_not_validator : ∀ a ∈ info.validatorKickout.keys, ∀ v ∈ info.validators, v.accountId ≠ a
  kicked_not_fisherman : ∀ a ∈ info.validatorKickout.keys, ∀ f ∈ info.fishermen, f.accountId ≠ a
  stakeChange_eq : ∀ a s, info.stakeChange.get? a = some s →
    (∃ v ∈ info.validators, v.accountId = a ∧ s = v.stake) ∨
      (∃ f ∈ info.fishermen, f.accountId = a ∧ s = f.stake) ∨
      ((∀ v ∈ info.validators, v.accountId ≠ a) ∧ (∀ f ∈ info.fishermen, f.accountId ≠ a) ∧ s = 0)

theorem proposalsToEpochInfo_wellFormed {epochConfig : EpochConfig} {rngSeed : Vector UInt8 32}
    {prevEpochInfo : EpochInfo} {proposals : List ValidatorStake}
    {validatorKickout : BTreeMap AccountId ValidatorKickoutReason}
    {validatorReward : BTreeMap AccountId ℕ} {mintedAmount nextVersion lastVersion : ℕ}
    {protocolFeatureFixStakingThreshold : Bool} {fuel : ℕ} {info : EpochInfo}
    (hfishermen : (prevEpochInfo.fishermen.map (·.accountId)).Nodup)
    (hok : proposalsToEpochInfo epochConfig rngSeed prevEpochInfo proposals validatorKickout
      validatorReward mintedAmount nextVersion lastVersion protocolFeatureFixStakingThreshold fuel =
        some (.ok info)) :
    info.WellFormed (chunkOnlyProducers nextVersion) := by
  obtain ⟨bp, bpRest, C, L, bpStakeThreshold, threshold, leftover, settlement, cps, hbp, hchunk,
    hreuse, hloop, hsettled, hvalidators, hindex, hbps, hcps, hfish, hstake, hkick⟩ :=
    proposalsToEpochInfo_eq_ok hok
  have hinv : RolloverInvariant validatorKickout (proposalsWithRollover proposals prevEpochInfo
      validatorReward validatorKickout .empty []) :=
    proposalsWithRollover_invariant proposals validatorReward hfishermen
  have hheap : C ++ L = orderProposals (proposalsWithRollover proposals prevEpochInfo
      validatorReward validatorKickout .empty []).proposalsByAccount.values ∧ bp <+: C := by
    cases hco : chunkOnlyProducers nextVersion
    · rw [(hreuse hco).1, (hreuse hco).2]
      exact ⟨selectValidators_split hbp, List.prefix_refl bp⟩
    · obtain ⟨cpStakeThreshold, hcp⟩ := hchunk hco
      unfold selectChunkProducers at hcp
      split_ifs at hcp with hshards
      refine ⟨selectValidators_split hcp, selectValidators_prefix (Nat.le_add_right _ _) ?_ hbp hcp⟩
      have hS : (1 : ℚ) / epochConfig.numShards ≤ 1 := by
        rw [div_le_one (by positivity)]
        exact_mod_cast Nat.one_le_iff_ne_zero.mpr hshards
      exact mul_le_of_le_one_right epochConfig.minStakeRatio_nonneg hS
  have hsplit : Split validatorKickout (proposalsWithRollover proposals prevEpochInfo
      validatorReward validatorKickout .empty []) C L := by
    refine ⟨hinv, ?_⟩
    rw [hheap.1]
    exact List.mergeSort_perm _ _
  have hbpC : ∀ v ∈ bp, v ∈ C := fun v hv => hheap.2.subset hv
  have hbpNodup : (bp.map (·.accountId)).Nodup :=
    hsplit.accountId_nodup.sublist ((hheap.2.sublist.trans (List.sublist_append_left C L)).map _)
  have hinv₀ : SettleInvariant C ⟨indexAccounts bp, bp, bp.length⟩ :=
    ⟨indexOf_indexAccounts hbpNodup, rfl, hbpC⟩
  obtain ⟨hinvS, hext, hcpsLt, hcover, hsame⟩ := settleChunkProducers_spec hinv₀ (fun v hv => hv)
    (fun id hid => List.mem_range.mp hid) hsettled
  have hW : ∀ v, v ∈ settlement.allValidators ↔ v ∈ C := by
    intro v
    refine ⟨hinvS.mem_pool v, fun hv => ?_⟩
    cases hco : chunkOnlyProducers nextVersion
    · rw [hsame hco, ← (hreuse hco).1]
      exact hv
    · obtain ⟨ids, -, id, -, hid⟩ := hcover hco v hv
      obtain ⟨hlt, hacc⟩ := (hinvS.index _ id).mp hid
      have hmem := hinvS.mem_pool _ (List.getElem_mem hlt)
      rw [← hsplit.eq_of_accountId_eq (List.mem_append_left _ hmem) (List.mem_append_left _ hv) hacc]
      exact List.getElem_mem hlt
  constructor
  · rw [hindex, hvalidators]
    exact hinvS.index
  · intro id hid
    rw [hbps] at hid
    rw [hvalidators]
    exact lt_of_lt_of_le (List.mem_range.mp hid) hext.2
  · rw [hcps, hvalidators]
    exact hcpsLt
  · -- a block producer keeps its id, which settling a shard that lists it hands out
    intro hco id hid
    rw [hbps] at hid
    rw [hcps]
    have hidlt := List.mem_range.mp hid
    obtain ⟨ids, hids, id', hid', hget⟩ := hcover hco bp[id] (hbpC _ (List.getElem_mem hidlt))
    have hget₀ : (indexAccounts bp).get? bp[id].accountId = some id :=
      (indexOf_indexAccounts hbpNodup _ id).mpr ⟨hidlt, rfl⟩
    rw [hext.1 _ _ hget₀, Option.some.injEq] at hget
    exact ⟨ids, hids, hget ▸ hid'⟩
  · intro f hf v hv
    rw [hfish] at hf
    rw [hvalidators] at hv
    exact hsplit.fisherman_not_chosen hloop f hf v ((hW v).mp hv)
  · rw [hfish]
    exact hsplit.fishermen_nodup hloop
  · intro a ha v hv
    rw [hkick] at ha
    rw [hvalidators] at hv
    exact (hsplit.kicked_not_chosen_or_fisherman hloop a ha).1 v ((hW v).mp hv)
  · intro a ha
    rw [hkick] at ha
    rw [hfish]
    exact (hsplit.kicked_not_chosen_or_fisherman hloop a ha).2
  · intro a s hs
    rw [hstake] at hs
    rw [hvalidators, hfish]
    rcases hsplit.stakeChange_eq hloop a s hs with ⟨c, hc, hca, hcs⟩ | hfisherman |
      ⟨hnotC, hnotF, hzero⟩
    · exact .inl ⟨c, (hW c).mpr hc, hca, hcs⟩
    · exact .inr (.inl hfisherman)
    · exact .inr (.inr ⟨fun v hv => hnotC v ((hW v).mp hv), hnotF, hzero⟩)

/-- A previous epoch with the validators `alice` (100) and `erin` (50) and the fisherman `dave`
(20). -/
def rolloverEpochInfo : EpochInfo :=
  ⟨3, [⟨"alice", .ed25519 (Vector.replicate 32 0), 100⟩, ⟨"erin", .ed25519 (Vector.replicate 32 0), 50⟩],
    indexAccounts [⟨"alice", .ed25519 (Vector.replicate 32 0), 100⟩,
      ⟨"erin", .ed25519 (Vector.replicate 32 0), 50⟩],
    [0, 1], [[0, 1]], [], [⟨"dave", .ed25519 (Vector.replicate 32 0), 20⟩],
    indexAccounts [⟨"dave", .ed25519 (Vector.replicate 32 0), 20⟩], .empty, .empty, .empty, 0, 0,
    56, Vector.replicate 32 0⟩

/-- Two seats: `erin` is kicked out, `alice` rolls over with her reward of 10, `bob` (80) and
`carol` (15) propose and `dave` proposes 5.  `alice` and `bob` take the seats, `carol` becomes a
fisherman and `dave` is kicked out for too little stake. -/
theorem proposalsToEpochInfo_wellFormed_rollover :
    ∃ info, proposalsToEpochInfo ⟨2, [2], 10, 1, ⟨0, 1, 0⟩⟩ (Vector.replicate 32 0) rolloverEpochInfo
        [⟨"bob", .ed25519 (Vector.replicate 32 0), 80⟩, ⟨"carol", .ed25519 (Vector.replicate 32 0), 15⟩,
          ⟨"dave", .ed25519 (Vector.replicate 32 0), 5⟩]
        (BTreeMap.empty.insert "erin" (.notEnoughBlocks 0 10)) (BTreeMap.empty.insert "alice" 10)
        10 56 56 false 20 = some (.ok info) ∧
      info.validators.map (·.accountId) = ["alice", "bob"] ∧ info.fishermen.map (·.accountId) = ["carol"] ∧
      info.validatorKickout.get? "dave" = some (.notEnoughStake 5 81) ∧
      info.WellFormed (chunkOnlyProducers 56) := by
  have hroll : (proposalsWithRollover [⟨"bob", .ed25519 (Vector.replicate 32 0), 80⟩,
      ⟨"carol", .ed25519 (Vector.replicate 32 0), 15⟩, ⟨"dave", .ed25519 (Vector.replicate 32 0), 5⟩]
      rolloverEpochInfo (BTreeMap.empty.insert "alice" 10)
      (BTreeMap.empty.insert "erin" (.notEnoughBlocks 0 10)) .empty []).proposalsByAccount.values =
        [⟨"alice", .ed25519 (Vector.replicate 32 0), 110⟩, ⟨"bob", .ed25519 (Vector.replicate 32 0), 80⟩,
          ⟨"carol", .ed25519 (Vector.replicate 32 0), 15⟩, ⟨"dave", .ed25519 (Vector.replicate 32 0), 5⟩] := by
    decide
  have hordered : orderProposals [⟨"alice", .ed25519 (Vector.replicate 32 0), 110⟩,
      ⟨"bob", .ed25519 (Vector.replicate 32 0), 80⟩, ⟨"carol", .ed25519 (Vector.replicate 32 0), 15⟩,
      ⟨"dave", .ed25519 (Vector.replicate 32 0), 5⟩] =
        [⟨"alice", .ed25519 (Vector.replicate 32 0), 110⟩, ⟨"bob", .ed25519 (Vector.replicate 32 0), 80⟩,
          ⟨"carol", .ed25519 (Vector.replicate 32 0), 15⟩, ⟨"dave", .ed25519 (Vector.replicate 32 0), 5⟩] :=
    List.mergeSort_of_pairwise (by decide)
  generalize hrun : proposalsToEpochInfo _ _ _ _ _ _ _ _ _ _ _ = r
  have hok : (r.bind Except.toOption).map (fun info => (info.validators.map (·.accountId),
      info.fishermen.map (·.accountId), info.validatorKickout.get? "dave")) =
        some (["alice", "bob"], ["carol"], some (.notEnoughStake 5 81)) := by
    subst hrun
    simp only [proposalsToEpochInfo, hroll, hordered]
    decide +kernel
  rcases r with _ | _ | info
  · cases hok
  · cases hok
  · obtain ⟨hvalidators, hrest⟩ := Prod.mk.inj (Option.some.inj hok)
    obtain ⟨hfishermen, hdave⟩ := Prod.mk.inj hrest
    exact ⟨info, rfl, hvalidators, hfishermen, hdave,
      proposalsToEpochInfo_wellFormed (by decide) hrun⟩

end Nearcore.EpochManager
