import Mathlib.Data.String.Basic
import Nearcore.RustArith
import Nearcore.Primitives
import Nearcore.BTreeMap

/-!
# Doomslug approval trackers at one target height

`DoomslugApprovalsTrackersAtHeight` keeps, for one target height, a tracker per approved
parent (`ApprovalInner`) and the last parent each account approved.  A tracker adds the
stakes of its witnesses, taken from the stakes map it was created with, and reports the
block ready once more than two thirds of both epochs' stakes approve.  A new approval of an
account first withdraws the account's previous one, which may empty and drop another
tracker.  Block validation (`Doomslug::can_approved_block_be_produced`) recounts the
approvals a block carries against the stakes list, with its own threshold test.

The build has overflow checks, so every `u128` operation that leaves the range is a panic:
the model returns `Option`, with `none` for a panic.  Hash maps are modelled as `BTreeMap`
(witnesses and stakes, whose length, emptiness and sum of values are read) or as functions
(the trackers and the last approvals, which are only read and written by key); the sums
taken over them do not depend on an iteration order.

The main result: on the stakes lists the `assert_eq!` accepts (distinct accounts, none
slashed) and whose totals leave room for `total * 2`, processing approvals never panics,
every account is a witness of at most the tracker its last approval names, every tracker's
approved stakes are the sums of its witnesses' stakes, and a tracker that reports the block
ready under `TwoThirds` has witnesses whose signatures make a block that passes validation.
-/

namespace Nearcore.Doomslug

/-- `DoomslugThresholdMode`. -/
inductive DoomslugThresholdMode where
  | noApprovals
  | twoThirds
  deriving DecidableEq, Repr

/-- `DoomslugBlockProductionReadiness`; an `Instant` is a number. -/
inductive DoomslugBlockProductionReadiness where
  | notReady
  | readySince (instant : ℕ)
  deriving DecidableEq, Repr

/-- `ApprovalInner`: the parent an approval endorses, or the height it skips from. -/
inductive ApprovalInner where
  | endorsement (hash : CryptoHash)
  | skip (height : ℕ)
  deriving DecidableEq, Repr

/-- `Approval`, with the fields these functions read. -/
structure Approval where
  inner : ApprovalInner
  accountId : AccountId
  deriving DecidableEq, Repr

/-- `ApprovalStake`, with the fields these functions read. -/
structure ApprovalStake where
  accountId : AccountId
  stakeThisEpoch : ℕ
  stakeNextEpoch : ℕ
  deriving DecidableEq, Repr

/-- `DoomslugApprovalsTracker`; the arrival times of the witnesses are not read here. -/
structure DoomslugApprovalsTracker where
  witness : BTreeMap AccountId Approval
  accountIdToStakes : BTreeMap AccountId (ℕ × ℕ)
  totalStakeThisEpoch : ℕ
  approvedStakeThisEpoch : ℕ
  totalStakeNextEpoch : ℕ
  approvedStakeNextEpoch : ℕ
  timePassedThreshold : Option ℕ
  thresholdMode : DoomslugThresholdMode

namespace DoomslugApprovalsTracker

/-- `DoomslugApprovalsTracker::new`: the totals are the sums of the map's stakes. -/
def new (accountIdToStakes : BTreeMap AccountId (ℕ × ℕ)) (thresholdMode : DoomslugThresholdMode) :
    Option DoomslugApprovalsTracker := do
  let totalStakeThisEpoch ← U128.checkedSum (accountIdToStakes.entries.map (·.2.1))
  let totalStakeNextEpoch ← U128.checkedSum (accountIdToStakes.entries.map (·.2.2))
  pure {
    witness := BTreeMap.empty, accountIdToStakes := accountIdToStakes,
    totalStakeThisEpoch := totalStakeThisEpoch, totalStakeNextEpoch := totalStakeNextEpoch,
    approvedStakeThisEpoch := 0, approvedStakeNextEpoch := 0, timePassedThreshold := none,
    thresholdMode := thresholdMode }

/-- `get_block_production_readiness`.  The test is evaluated as Rust does, left to right with
short circuits, so `total_stake_next_epoch * 2` is only computed when the first comparison
holds. -/
def getBlockProductionReadiness (self : DoomslugApprovalsTracker) (now : ℕ) :
    Option (DoomslugBlockProductionReadiness × DoomslugApprovalsTracker) := do
  let twiceThis ← U128.checkedMul self.totalStakeThisEpoch 2
  let passed ←
    (if self.approvedStakeThisEpoch > twiceThis / 3 then do
      let twiceNext ← U128.checkedMul self.totalStakeNextEpoch 2
      pure (decide (self.approvedStakeNextEpoch > twiceNext / 3) ||
        decide (self.totalStakeNextEpoch = 0))
    else pure false)
  if passed || decide (self.thresholdMode = .noApprovals) then
    -- the first time the threshold is passed is kept, and returned by the `unwrap`
    let since := self.timePassedThreshold.getD now
    pure (.readySince since, { self with timePassedThreshold := some since })
  else pure (.notReady, self)

/-- `DoomslugApprovalsTracker::process_approval`: only a new witness adds its stakes. -/
def processApproval (self : DoomslugApprovalsTracker) (now : ℕ) (approval : Approval) :
    Option (DoomslugBlockProductionReadiness × DoomslugApprovalsTracker) := do
  let self ←
    (if self.witness.get? approval.accountId = none then do
      let stakes := (self.accountIdToStakes.get? approval.accountId).getD (0, 0)
      let approvedStakeThisEpoch ← U128.checkedAdd self.approvedStakeThisEpoch stakes.1
      let approvedStakeNextEpoch ← U128.checkedAdd self.approvedStakeNextEpoch stakes.2
      pure { self with
        witness := self.witness.insert approval.accountId approval,
        approvedStakeThisEpoch := approvedStakeThisEpoch,
        approvedStakeNextEpoch := approvedStakeNextEpoch }
    else pure self)
  self.getBlockProductionReadiness now

/-- `withdraw_approval`: the stakes of the stored approval's account are taken back. -/
def withdrawApproval (self : DoomslugApprovalsTracker) (accountId : AccountId) :
    Option DoomslugApprovalsTracker :=
  match self.witness.get? accountId with
  | none => some self
  | some approval => do
    let stakes := (self.accountIdToStakes.get? approval.accountId).getD (0, 0)
    let approvedStakeThisEpoch ← U128.checkedSub self.approvedStakeThisEpoch stakes.1
    let approvedStakeNextEpoch ← U128.checkedSub self.approvedStakeNextEpoch stakes.2
    pure { self with
      witness := self.witness.erase accountId,
      approvedStakeThisEpoch := approvedStakeThisEpoch,
      approvedStakeNextEpoch := approvedStakeNextEpoch }

end DoomslugApprovalsTracker

/-- `DoomslugApprovalsTrackersAtHeight`. -/
structure DoomslugApprovalsTrackersAtHeight where
  approvalTrackers : ApprovalInner → Option DoomslugApprovalsTracker
  lastApprovalPerAccount : AccountId → Option ApprovalInner

namespace DoomslugApprovalsTrackersAtHeight

/-- `DoomslugApprovalsTrackersAtHeight::new()`. -/
def new : DoomslugApprovalsTrackersAtHeight := ⟨fun _ => none, fun _ => none⟩

/-- The stakes of the producers that are not slashed, by account, as
`collect::<HashMap<_, _>>()` builds them: a later entry of an account replaces an earlier one. -/
def accountIdToStakes (stakes : List (ApprovalStake × Bool)) : BTreeMap AccountId (ℕ × ℕ) :=
  (stakes.filterMap fun s =>
      if s.2 then none else some (s.1.accountId, (s.1.stakeThisEpoch, s.1.stakeNextEpoch))).foldl
    (fun m e => m.insert e.1 e.2) BTreeMap.empty

/-- The first part of `process_approval`: the account's previous approval is withdrawn, and
its tracker dropped when that leaves it without witnesses. -/
def withdrawLastApproval (self : DoomslugApprovalsTrackersAtHeight) (accountId : AccountId) :
    Option DoomslugApprovalsTrackersAtHeight :=
  match self.lastApprovalPerAccount accountId with
  | none => some self
  | some lastParent =>
    match self.approvalTrackers lastParent with
    | none => some self
    | some tracker => do
      let tracker ← tracker.withdrawApproval accountId
      if tracker.witness.isEmpty then
        pure { self with approvalTrackers := Function.update self.approvalTrackers lastParent none }
      else
        pure { self with
          approvalTrackers := Function.update self.approvalTrackers lastParent (some tracker) }

/-- `DoomslugApprovalsTrackersAtHeight::process_approval`. -/
def processApproval (self : DoomslugApprovalsTrackersAtHeight) (now : ℕ) (approval : Approval)
    (stakes : List (ApprovalStake × Bool)) (thresholdMode : DoomslugThresholdMode) :
    Option (DoomslugBlockProductionReadiness × DoomslugApprovalsTrackersAtHeight) := do
  let self ← self.withdrawLastApproval approval.accountId
  let accountIdToStakes := accountIdToStakes stakes
  -- `assert_eq!(account_id_to_stakes.len(), stakes.len())`
  if accountIdToStakes.entries.length ≠ stakes.length then none
  else if accountIdToStakes.get? approval.accountId = none then pure (.notReady, self)
  else
    let self := { self with
      lastApprovalPerAccount :=
        Function.update self.lastApprovalPerAccount approval.accountId (some approval.inner) }
    let tracker ←
      (match self.approvalTrackers approval.inner with
        | some tracker => pure tracker
        | none => DoomslugApprovalsTracker.new accountIdToStakes thresholdMode)
    let (readiness, tracker) ← tracker.processApproval now approval
    pure (readiness, { self with
      approvalTrackers := Function.update self.approvalTrackers approval.inner (some tracker) })

end DoomslugApprovalsTrackersAtHeight

/-- `Doomslug::can_approved_block_be_produced`: the approvals of a block, one per entry of the
stakes list, against two thirds of each epoch's total stake. -/
def canApprovedBlockBeProduced {σ : Type} (mode : DoomslugThresholdMode)
    (approvals : List (Option σ)) (stakes : List (ℕ × ℕ × Bool)) : Option Bool :=
  if mode = .noApprovals then some true
  else do
    let total1 ← U128.checkedSum (stakes.map (·.1))
    let threshold1 := (← U128.checkedMul total1 2) / 3
    let total2 ← U128.checkedSum (stakes.map (·.2.1))
    let threshold2 := (← U128.checkedMul total2 2) / 3
    let counted := (approvals.zip stakes).filter fun p => !p.2.2.2
    let approvedStake1 ← U128.checkedSum (counted.map fun p => if p.1.isSome then p.2.1 else 0)
    let approvedStake2 ← U128.checkedSum (counted.map fun p => if p.1.isSome then p.2.2.1 else 0)
    pure ((decide (approvedStake1 > threshold1) || decide (threshold1 = 0)) &&
      (decide (approvedStake2 > threshold2) || decide (threshold2 = 0)))

/-! ## The stakes map of a list the assertion accepts -/

/-- The stakes of account `a` in the list, from its first entry that is not slashed, and zero
when it has none. -/
def stakeOf (stakes : List (ApprovalStake × Bool)) (a : AccountId) : ℕ × ℕ :=
  match stakes.find? (fun s => s.1.accountId = a && !s.2) with
  | some s => (s.1.stakeThisEpoch, s.1.stakeNextEpoch)
  | none => (0, 0)

theorem sum_map_le_of_subset {α : Type} {xs ys : List α} (f : α → ℕ) (hxs : xs.Nodup)
    (hsub : xs ⊆ ys) : (xs.map f).sum ≤ (ys.map f).sum := by
  obtain ⟨zs, hperm, hsubl⟩ := List.subperm_of_subset hxs hsub
  rw [← (hperm.map f).sum_eq]
  exact (hsubl.map f).sum_le_sum fun _ _ => Nat.zero_le _

section StakesMap

open DoomslugApprovalsTrackersAtHeight

variable {stakes : List (ApprovalStake × Bool)}

/-- The entry an unslashed producer contributes to the map. -/
def stakeEntry (s : ApprovalStake × Bool) : AccountId × (ℕ × ℕ) :=
  (s.1.accountId, (s.1.stakeThisEpoch, s.1.stakeNextEpoch))

theorem entries_perm_accountIdToStakes (hnodup : (stakes.map (·.1.accountId)).Nodup)
    (hslashed : ∀ s ∈ stakes, s.2 = false) :
    (accountIdToStakes stakes).entries.Perm (stakes.map stakeEntry) := by
  have hfilter : (stakes.filterMap fun s =>
      if s.2 then none else some (s.1.accountId, (s.1.stakeThisEpoch, s.1.stakeNextEpoch))) =
      stakes.map stakeEntry := by
    rw [← List.filterMap_eq_map]
    apply List.filterMap_congr
    intro s hs
    simp [hslashed s hs, stakeEntry]
  have hkeys : ((stakes.map stakeEntry).map Prod.fst).Nodup := by
    simpa [List.map_map, stakeEntry, Function.comp_def] using hnodup
  rw [accountIdToStakes, hfilter]
  simpa [BTreeMap.empty] using
    BTreeMap.entries_perm_foldl_insert _ hkeys BTreeMap.empty (fun _ _ => by simp [BTreeMap.get?, BTreeMap.empty])

theorem stakeOf_of_not_mem {a : AccountId} (ha : a ∉ stakes.map (·.1.accountId)) :
    stakeOf stakes a = (0, 0) := by
  have hnone : stakes.find? (fun s => s.1.accountId = a && !s.2) = none := by
    rw [List.find?_eq_none]
    intro s hs hp
    simp only [Bool.and_eq_true, decide_eq_true_eq] at hp
    exact ha (List.mem_map.mpr ⟨s, hs, hp.1⟩)
  rw [stakeOf, hnone]

section Accepted

variable (hnodup : (stakes.map (·.1.accountId)).Nodup) (hslashed : ∀ s ∈ stakes, s.2 = false)
include hnodup hslashed

theorem length_accountIdToStakes : (accountIdToStakes stakes).entries.length = stakes.length := by
  rw [(entries_perm_accountIdToStakes hnodup hslashed).length_eq, List.length_map]

theorem stakeOf_of_mem {s : ApprovalStake × Bool} (hs : s ∈ stakes) :
    stakeOf stakes s.1.accountId = (s.1.stakeThisEpoch, s.1.stakeNextEpoch) := by
  rw [stakeOf]
  cases hfind : stakes.find? (fun s' => s'.1.accountId = s.1.accountId && !s'.2) with
  | none =>
    have := List.find?_eq_none.mp hfind s hs
    simp [hslashed s hs] at this
  | some s' =>
    have hp := List.find?_some hfind
    simp only [Bool.and_eq_true, decide_eq_true_eq] at hp
    rw [List.inj_on_of_nodup_map hnodup (List.mem_of_find?_eq_some hfind) hs hp.1]

theorem get?_accountIdToStakes (a : AccountId) :
    (accountIdToStakes stakes).get? a =
      if a ∈ stakes.map (·.1.accountId) then some (stakeOf stakes a) else none := by
  have hmem : ∀ v, (accountIdToStakes stakes).get? a = some v ↔
      ∃ s ∈ stakes, s.1.accountId = a ∧ (s.1.stakeThisEpoch, s.1.stakeNextEpoch) = v := by
    intro v
    rw [BTreeMap.get?_eq_some_iff, (entries_perm_accountIdToStakes hnodup hslashed).mem_iff]
    simp [stakeEntry]
  split_ifs with ha
  · obtain ⟨s, hs, rfl⟩ := List.mem_map.mp ha
    exact (hmem _).mpr ⟨s, hs, rfl, (stakeOf_of_mem hnodup hslashed hs).symm⟩
  · cases hget : (accountIdToStakes stakes).get? a with
    | none => rfl
    | some v =>
      obtain ⟨s, hs, hacc, -⟩ := (hmem v).mp hget
      exact absurd (List.mem_map.mpr ⟨s, hs, hacc⟩) ha

theorem sum_entries_accountIdToStakes (proj : ℕ × ℕ → ℕ) :
    ((accountIdToStakes stakes).entries.map (proj ·.2)).sum =
      (stakes.map fun s => proj (s.1.stakeThisEpoch, s.1.stakeNextEpoch)).sum := by
  rw [((entries_perm_accountIdToStakes hnodup hslashed).map _).sum_eq, List.map_map]
  rfl

/-- Counting the producers of a set of accounts through the list, as block validation does,
gives the sum of their stakes. -/
theorem sum_ite_mem_eq (proj : ℕ × ℕ → ℕ) {accounts : List AccountId} (hacc : accounts.Nodup)
    (hsub : accounts ⊆ stakes.map (·.1.accountId)) :
    (stakes.map fun s =>
        if s.1.accountId ∈ accounts then proj (s.1.stakeThisEpoch, s.1.stakeNextEpoch) else 0).sum =
      (accounts.map fun a => proj (stakeOf stakes a)).sum := by
  rw [List.sum_map_ite, List.map_const', List.sum_replicate, smul_zero, Nat.add_zero]
  set chosen := stakes.filter fun s => decide (s.1.accountId ∈ accounts)
  have hperm : (chosen.map (·.1.accountId)).Perm accounts := by
    refine (List.perm_ext_iff_of_nodup (hnodup.sublist (List.filter_sublist.map _)) hacc).mpr ?_
    intro a
    constructor
    · intro ha
      obtain ⟨s, hs, rfl⟩ := List.mem_map.mp ha
      simpa using (List.mem_filter.mp hs).2
    · intro ha
      obtain ⟨s, hs, rfl⟩ := List.mem_map.mp (hsub ha)
      exact List.mem_map.mpr ⟨s, List.mem_filter.mpr ⟨hs, by simpa using ha⟩, rfl⟩
  rw [← (hperm.map _).sum_eq, List.map_map]
  congr 1
  apply List.map_congr_left
  intro s hs
  simp only [Function.comp_apply, stakeOf_of_mem hnodup hslashed (List.mem_of_mem_filter hs)]

end Accepted

end StakesMap

/-! ## A tracker counts its witnesses' stakes -/

section Tracker

namespace DoomslugApprovalsTracker

/-- The stakes a map gives an account, `(0, 0)` when it has none, as `map_or((0, 0), |x| *x)`. -/
def stakesIn (accountIdToStakes : BTreeMap AccountId (ℕ × ℕ)) (a : AccountId) : ℕ × ℕ :=
  (accountIdToStakes.get? a).getD (0, 0)

/-- The sum of one epoch's stakes over some accounts. -/
def stakeSum (accountIdToStakes : BTreeMap AccountId (ℕ × ℕ)) (proj : ℕ × ℕ → ℕ)
    (accounts : List AccountId) : ℕ :=
  (accounts.map fun a => proj (stakesIn accountIdToStakes a)).sum

/-- A tracker created from the map `M` in mode `mode`: its totals are the map's, each witness is
stored under its own account and has stakes in the map, and the approved stakes are the sums
over the witnesses. -/
structure Invariant (M : BTreeMap AccountId (ℕ × ℕ)) (mode : DoomslugThresholdMode)
    (tracker : DoomslugApprovalsTracker) : Prop where
  accountIdToStakes_eq : tracker.accountIdToStakes = M
  totalStakeThisEpoch_eq : tracker.totalStakeThisEpoch = (M.entries.map (·.2.1)).sum
  totalStakeNextEpoch_eq : tracker.totalStakeNextEpoch = (M.entries.map (·.2.2)).sum
  thresholdMode_eq : tracker.thresholdMode = mode
  witness_accountId : ∀ a approval, tracker.witness.get? a = some approval → approval.accountId = a
  witness_staked : ∀ a ∈ tracker.witness.keys, M.get? a ≠ none
  approvedStakeThisEpoch_eq : tracker.approvedStakeThisEpoch = stakeSum M (·.1) tracker.witness.keys
  approvedStakeNextEpoch_eq : tracker.approvedStakeNextEpoch = stakeSum M (·.2) tracker.witness.keys

variable {M : BTreeMap AccountId (ℕ × ℕ)} {mode : DoomslugThresholdMode}

theorem stakeSum_keys (proj : ℕ × ℕ → ℕ) :
    stakeSum M proj M.keys = (M.entries.map (proj ·.2)).sum := by
  have h := BTreeMap.map_keys_get? M (fun o => proj (o.getD (0, 0)))
  simp only [Option.getD_some] at h
  exact congrArg List.sum h

theorem stakeSum_le_total (proj : ℕ × ℕ → ℕ) {accounts : List AccountId} (hnodup : accounts.Nodup)
    (hstaked : ∀ a ∈ accounts, M.get? a ≠ none) :
    stakeSum M proj accounts ≤ (M.entries.map (proj ·.2)).sum := by
  rw [← stakeSum_keys]
  apply sum_map_le_of_subset _ hnodup
  intro a ha
  obtain ⟨v, hv⟩ := Option.ne_none_iff_exists'.mp (hstaked a ha)
  exact (BTreeMap.mem_keys_iff M a).mpr ⟨v, hv⟩

theorem new_eq (hthis : (M.entries.map (·.2.1)).sum < 2 ^ 128)
    (hnext : (M.entries.map (·.2.2)).sum < 2 ^ 128) :
    new M mode = some {
      witness := BTreeMap.empty, accountIdToStakes := M,
      totalStakeThisEpoch := (M.entries.map (·.2.1)).sum,
      totalStakeNextEpoch := (M.entries.map (·.2.2)).sum,
      approvedStakeThisEpoch := 0, approvedStakeNextEpoch := 0, timePassedThreshold := none,
      thresholdMode := mode } := by
  rw [new, U128.checkedSum_of_lt hthis, U128.checkedSum_of_lt hnext]
  rfl

theorem invariant_new_eq (tracker : DoomslugApprovalsTracker)
    (h : tracker = {
      witness := BTreeMap.empty, accountIdToStakes := M,
      totalStakeThisEpoch := (M.entries.map (·.2.1)).sum,
      totalStakeNextEpoch := (M.entries.map (·.2.2)).sum,
      approvedStakeThisEpoch := 0, approvedStakeNextEpoch := 0, timePassedThreshold := none,
      thresholdMode := mode }) : Invariant M mode tracker := by
  subst h
  refine ⟨rfl, rfl, rfl, rfl, ?_, ?_, rfl, rfl⟩
  · intro a approval h
    simp [BTreeMap.get?, BTreeMap.empty] at h
  · intro a ha
    simp [BTreeMap.keys, BTreeMap.empty] at ha

/-- The test of `get_block_production_readiness`: more than two thirds of this epoch's stake
and of the next epoch's (unless it has none), or no approvals needed. -/
def PassesThreshold (tracker : DoomslugApprovalsTracker) : Prop :=
  (tracker.approvedStakeThisEpoch > tracker.totalStakeThisEpoch * 2 / 3 ∧
    (tracker.approvedStakeNextEpoch > tracker.totalStakeNextEpoch * 2 / 3 ∨
      tracker.totalStakeNextEpoch = 0)) ∨
  tracker.thresholdMode = .noApprovals

/-- With totals that leave room for `total * 2` the readiness test does not panic, changes only
the time the threshold was passed, and reports ready only past the threshold. -/
theorem getBlockProductionReadiness_eq (tracker : DoomslugApprovalsTracker) (now : ℕ)
    (hthis : tracker.totalStakeThisEpoch * 2 < 2 ^ 128)
    (hnext : tracker.totalStakeNextEpoch * 2 < 2 ^ 128) :
    ∃ readiness timePassedThreshold,
      tracker.getBlockProductionReadiness now =
        some (readiness, { tracker with timePassedThreshold := timePassedThreshold }) ∧
      ∀ since, readiness = .readySince since → PassesThreshold tracker := by
  unfold getBlockProductionReadiness
  rw [U128.checkedMul_of_lt hthis]
  by_cases hfirst : tracker.approvedStakeThisEpoch > tracker.totalStakeThisEpoch * 2 / 3
  · simp only [Option.pure_def, Option.bind_eq_bind, Option.bind_some, if_pos hfirst,
      U128.checkedMul_of_lt hnext]
    split_ifs with hpass
    · refine ⟨_, _, rfl, fun _ _ => ?_⟩
      simp only [Bool.or_eq_true, decide_eq_true_eq] at hpass
      rcases hpass with hpass | hmode
      · exact .inl ⟨hfirst, hpass⟩
      · exact .inr hmode
    · exact ⟨_, tracker.timePassedThreshold, rfl, fun _ h => by cases h⟩
  · simp only [Option.pure_def, Option.bind_eq_bind, Option.bind_some, if_neg hfirst]
    split_ifs with hpass
    · refine ⟨_, _, rfl, fun _ _ => ?_⟩
      simp only [Bool.false_or, decide_eq_true_eq] at hpass
      exact .inr hpass
    · exact ⟨_, tracker.timePassedThreshold, rfl, fun _ h => by cases h⟩

theorem stakeSum_insert (proj : ℕ × ℕ → ℕ) {W : BTreeMap AccountId Approval} {a : AccountId}
    (hfresh : W.get? a = none) (approval : Approval) :
    stakeSum M proj (W.insert a approval).keys = proj (stakesIn M a) + stakeSum M proj W.keys := by
  rw [stakeSum, ((BTreeMap.keys_perm_insert hfresh approval).map _).sum_eq, List.map_cons,
    List.sum_cons, stakeSum]

theorem stakeSum_erase (proj : ℕ × ℕ → ℕ) {W : BTreeMap AccountId Approval} {a : AccountId}
    {approval : Approval} (hmem : W.get? a = some approval) :
    stakeSum M proj W.keys = proj (stakesIn M a) + stakeSum M proj (W.erase a).keys := by
  rw [stakeSum, ((BTreeMap.keys_perm_erase hmem).map _).sum_eq, List.map_cons, List.sum_cons,
    stakeSum]

theorem Invariant.withTimePassedThreshold {tracker : DoomslugApprovalsTracker}
    (hinv : Invariant M mode tracker) (timePassedThreshold : Option ℕ) :
    Invariant M mode { tracker with timePassedThreshold := timePassedThreshold } :=
  ⟨hinv.1, hinv.2, hinv.3, hinv.4, hinv.5, hinv.6, hinv.7, hinv.8⟩

/-- A new witness is counted once: its stakes are added and the invariant is kept. -/
theorem processApproval_fresh {tracker : DoomslugApprovalsTracker} (now : ℕ) {approval : Approval}
    (hinv : Invariant M mode tracker) (hfresh : tracker.witness.get? approval.accountId = none)
    (hstaked : M.get? approval.accountId ≠ none)
    (hthis : (M.entries.map (·.2.1)).sum * 2 < 2 ^ 128)
    (hnext : (M.entries.map (·.2.2)).sum * 2 < 2 ^ 128) :
    ∃ readiness tracker', tracker.processApproval now approval = some (readiness, tracker') ∧
      Invariant M mode tracker' ∧
      tracker'.witness = tracker.witness.insert approval.accountId approval ∧
      ∀ since, readiness = .readySince since → PassesThreshold tracker' := by
  have hkeys : (approval.accountId :: tracker.witness.keys).Nodup := by
    refine List.nodup_cons.mpr ⟨fun ha => ?_, tracker.witness.keys_nodup⟩
    obtain ⟨v, hv⟩ := (BTreeMap.mem_keys_iff _ _).mp ha
    rw [hfresh] at hv
    cases hv
  have hstakedAll : ∀ b ∈ approval.accountId :: tracker.witness.keys, M.get? b ≠ none := by
    intro b hb
    rcases List.mem_cons.mp hb with rfl | hb
    · exact hstaked
    · exact hinv.witness_staked b hb
  have hbound : ∀ proj : ℕ × ℕ → ℕ,
      proj (stakesIn M approval.accountId) + stakeSum M proj tracker.witness.keys ≤
        (M.entries.map (proj ·.2)).sum := by
    intro proj
    have := stakeSum_le_total proj hkeys hstakedAll
    rwa [stakeSum, List.map_cons, List.sum_cons] at this
  have h1 := hbound (·.1)
  have h2 := hbound (·.2)
  unfold stakesIn at h1 h2
  unfold processApproval
  rw [if_pos hfresh, hinv.accountIdToStakes_eq, hinv.approvedStakeThisEpoch_eq,
    hinv.approvedStakeNextEpoch_eq]
  dsimp only
  rw [U128.checkedAdd_of_lt (by omega), U128.checkedAdd_of_lt (by omega)]
  simp only [Option.pure_def, Option.bind_eq_bind, Option.bind_some]
  set counted : DoomslugApprovalsTracker := { tracker with
    witness := tracker.witness.insert approval.accountId approval,
    accountIdToStakes := M,
    approvedStakeThisEpoch :=
      stakeSum M (·.1) tracker.witness.keys + ((M.get? approval.accountId).getD (0, 0)).1,
    approvedStakeNextEpoch :=
      stakeSum M (·.2) tracker.witness.keys + ((M.get? approval.accountId).getD (0, 0)).2 }
  have hcounted : Invariant M mode counted := by
    refine ⟨rfl, hinv.totalStakeThisEpoch_eq, hinv.totalStakeNextEpoch_eq, hinv.thresholdMode_eq,
      ?_, ?_, ?_, ?_⟩
    · intro b v hb
      rw [BTreeMap.get?_insert] at hb
      split_ifs at hb with hab
      · rw [← Option.some.inj hb, ← hab]
      · exact hinv.witness_accountId b v hb
    · intro b hb
      exact hstakedAll b (((BTreeMap.keys_perm_insert hfresh approval).mem_iff).mp hb)
    · rw [stakeSum_insert _ hfresh, stakesIn, Nat.add_comm]
    · rw [stakeSum_insert _ hfresh, stakesIn, Nat.add_comm]
  obtain ⟨readiness, timePassedThreshold, hrun, hready⟩ := getBlockProductionReadiness_eq counted now
    (by rw [hcounted.totalStakeThisEpoch_eq]; exact hthis)
    (by rw [hcounted.totalStakeNextEpoch_eq]; exact hnext)
  exact ⟨readiness, _, hrun, hcounted.withTimePassedThreshold _, rfl, hready⟩

theorem withdrawApproval_eq {tracker : DoomslugApprovalsTracker} (hinv : Invariant M mode tracker)
    (a : AccountId) :
    ∃ tracker', tracker.withdrawApproval a = some tracker' ∧ Invariant M mode tracker' ∧
      ∀ b, tracker'.witness.get? b = if a = b then none else tracker.witness.get? b := by
  unfold withdrawApproval
  cases hget : tracker.witness.get? a with
  | none =>
    refine ⟨tracker, rfl, hinv, fun b => ?_⟩
    split_ifs with hab
    · rw [← hab, hget]
    · rfl
  | some approval =>
    have hacc : approval.accountId = a := hinv.witness_accountId a approval hget
    have hthis := stakeSum_erase (M := M) (·.1) hget
    have hnext := stakeSum_erase (M := M) (·.2) hget
    dsimp only
    rw [hacc, hinv.accountIdToStakes_eq, hinv.approvedStakeThisEpoch_eq,
      hinv.approvedStakeNextEpoch_eq]
    unfold stakesIn at hthis hnext
    rw [U128.checkedSub_of_le (by omega), U128.checkedSub_of_le (by omega)]
    simp only [Option.pure_def, Option.bind_eq_bind, Option.bind_some]
    refine ⟨_, rfl, ⟨rfl, hinv.totalStakeThisEpoch_eq,
      hinv.totalStakeNextEpoch_eq, hinv.thresholdMode_eq, ?_, ?_, ?_, ?_⟩, ?_⟩
    · intro b v hb
      rw [BTreeMap.get?_erase] at hb
      split_ifs at hb with hab
      exact hinv.witness_accountId b v hb
    · intro b hb
      exact hinv.witness_staked b
        (((BTreeMap.keys_perm_erase hget).mem_iff).mpr (List.mem_cons_of_mem _ hb))
    · dsimp only
      omega
    · dsimp only
      omega
    · intro b
      exact BTreeMap.get?_erase _ _ _

end DoomslugApprovalsTracker

end Tracker

/-! ## The trackers of one height over a run -/

section Height

namespace DoomslugApprovalsTrackersAtHeight

open DoomslugApprovalsTracker

/-- Every tracker at the height was created from the map `M` in mode `mode` and keeps its
invariant, and an account is a witness only of the tracker its last approval names. -/
structure Invariant (M : BTreeMap AccountId (ℕ × ℕ)) (mode : DoomslugThresholdMode)
    (trackers : DoomslugApprovalsTrackersAtHeight) : Prop where
  tracker_invariant : ∀ parent tracker, trackers.approvalTrackers parent = some tracker →
    DoomslugApprovalsTracker.Invariant M mode tracker
  witness_last : ∀ parent tracker a, trackers.approvalTrackers parent = some tracker →
    a ∈ tracker.witness.keys → trackers.lastApprovalPerAccount a = some parent

variable {M : BTreeMap AccountId (ℕ × ℕ)} {mode : DoomslugThresholdMode}
  {self : DoomslugApprovalsTrackersAtHeight}

theorem invariant_new : Invariant M mode new where
  tracker_invariant _ _ h := by simp [new] at h
  witness_last _ _ _ h := by simp [new] at h

/-- Withdrawing an account's last approval keeps the invariant, leaves the last approvals as
they are, and leaves the account a witness of no tracker. -/
theorem withdrawLastApproval_eq (hinv : Invariant M mode self) (a : AccountId) :
    ∃ self', self.withdrawLastApproval a = some self' ∧ Invariant M mode self' ∧
      self'.lastApprovalPerAccount = self.lastApprovalPerAccount ∧
      ∀ parent tracker, self'.approvalTrackers parent = some tracker → a ∉ tracker.witness.keys := by
  have hnowhere : ∀ p, self.lastApprovalPerAccount a = some p → ∀ q tracker,
      q ≠ p → self.approvalTrackers q = some tracker → a ∉ tracker.witness.keys := by
    intro p hlast q tracker hqp htracker ha
    rw [hinv.witness_last q tracker a htracker ha] at hlast
    exact hqp (Option.some.inj hlast)
  unfold withdrawLastApproval
  cases hlast : self.lastApprovalPerAccount a with
  | none =>
    refine ⟨self, rfl, hinv, rfl, fun q tracker htracker ha => ?_⟩
    rw [hinv.witness_last q tracker a htracker ha] at hlast
    cases hlast
  | some p =>
    dsimp only
    cases hp : self.approvalTrackers p with
    | none =>
      refine ⟨self, rfl, hinv, rfl, fun q tracker htracker => ?_⟩
      refine hnowhere p hlast q tracker (fun hqp => ?_) htracker
      rw [hqp, hp] at htracker
      cases htracker
    | some tracker =>
      obtain ⟨tracker', hwithdraw, htinv, hget⟩ :=
        withdrawApproval_eq (hinv.tracker_invariant p tracker hp) a
      have hnotin : a ∉ tracker'.witness.keys :=
        (BTreeMap.get?_eq_none_iff _ _).mp (by rw [hget, if_pos rfl])
      have hsub : ∀ b ∈ tracker'.witness.keys, b ∈ tracker.witness.keys := by
        intro b hb
        obtain ⟨v, hv⟩ := (BTreeMap.mem_keys_iff _ b).mp hb
        rw [hget] at hv
        split_ifs at hv
        exact (BTreeMap.mem_keys_iff _ b).mpr ⟨v, hv⟩
      dsimp only
      rw [hwithdraw]
      simp only [Option.pure_def, Option.bind_eq_bind, Option.bind_some]
      split_ifs
      · -- the emptied tracker is dropped
        refine ⟨_, rfl, ⟨fun q t ht => ?_, fun q t b ht hb => ?_⟩, rfl, fun q t ht => ?_⟩
        · simp only [Function.update_apply] at ht
          split_ifs at ht
          exact hinv.tracker_invariant q t ht
        · simp only [Function.update_apply] at ht
          split_ifs at ht
          exact hinv.witness_last q t b ht hb
        · simp only [Function.update_apply] at ht
          split_ifs at ht with hqp
          exact hnowhere p hlast q t hqp ht
      · refine ⟨_, rfl, ⟨fun q t ht => ?_, fun q t b ht hb => ?_⟩, rfl, fun q t ht => ?_⟩
        · simp only [Function.update_apply] at ht
          split_ifs at ht with hqp
          · rw [← Option.some.inj ht]
            exact htinv
          · exact hinv.tracker_invariant q t ht
        · simp only [Function.update_apply] at ht
          split_ifs at ht with hqp
          · rw [← Option.some.inj ht] at hb
            rw [hqp]
            exact hinv.witness_last p tracker b hp (hsub b hb)
          · exact hinv.witness_last q t b ht hb
        · simp only [Function.update_apply] at ht
          split_ifs at ht with hqp
          · rw [← Option.some.inj ht]
            exact hnotin
          · exact hnowhere p hlast q t hqp ht

/-- The trackers of one height reachable from `new` by approvals that do not panic, with the one
stakes list and threshold mode `Doomslug` passes to every call. -/
inductive Reachable (stakes : List (ApprovalStake × Bool)) (mode : DoomslugThresholdMode) :
    DoomslugApprovalsTrackersAtHeight → Prop
  | new : Reachable stakes mode new
  | step {trackers trackers' : DoomslugApprovalsTrackersAtHeight}
      {readiness : DoomslugBlockProductionReadiness} (now : ℕ) (approval : Approval) :
      Reachable stakes mode trackers →
      trackers.processApproval now approval stakes mode = some (readiness, trackers') →
      Reachable stakes mode trackers'

theorem stakesIn_accountIdToStakes {stakes : List (ApprovalStake × Bool)}
    (hnodup : (stakes.map (·.1.accountId)).Nodup) (hslashed : ∀ s ∈ stakes, s.2 = false)
    (a : AccountId) : stakesIn (accountIdToStakes stakes) a = stakeOf stakes a := by
  rw [stakesIn, get?_accountIdToStakes hnodup hslashed]
  split_ifs with ha
  · rfl
  · exact (stakeOf_of_not_mem ha).symm

/-- A tracker over the map counts each epoch's stakes of its witnesses as the list gives them. -/
theorem approvedStake_eq_stakeOf {stakes : List (ApprovalStake × Bool)}
    (hnodup : (stakes.map (·.1.accountId)).Nodup) (hslashed : ∀ s ∈ stakes, s.2 = false)
    {mode : DoomslugThresholdMode} {tracker : DoomslugApprovalsTracker}
    (htinv : DoomslugApprovalsTracker.Invariant (accountIdToStakes stakes) mode tracker) :
    tracker.approvedStakeThisEpoch = (tracker.witness.keys.map fun a => (stakeOf stakes a).1).sum ∧
      tracker.approvedStakeNextEpoch = (tracker.witness.keys.map fun a => (stakeOf stakes a).2).sum := by
  rw [htinv.approvedStakeThisEpoch_eq, htinv.approvedStakeNextEpoch_eq, stakeSum, stakeSum]
  simp only [stakesIn_accountIdToStakes hnodup hslashed, and_self]

theorem witness_subset_accounts {stakes : List (ApprovalStake × Bool)}
    (hnodup : (stakes.map (·.1.accountId)).Nodup) (hslashed : ∀ s ∈ stakes, s.2 = false)
    {mode : DoomslugThresholdMode} {tracker : DoomslugApprovalsTracker}
    (htinv : DoomslugApprovalsTracker.Invariant (accountIdToStakes stakes) mode tracker) :
    tracker.witness.keys ⊆ stakes.map (·.1.accountId) := by
  intro a ha
  have hstaked := htinv.witness_staked a ha
  rw [get?_accountIdToStakes hnodup hslashed] at hstaked
  split_ifs at hstaked with hmem
  · exact hmem
  · exact absurd rfl hstaked

/-! ## One approval at a height -/

section Step

variable {stakes : List (ApprovalStake × Bool)}
  (hnodup : (stakes.map (·.1.accountId)).Nodup) (hslashed : ∀ s ∈ stakes, s.2 = false)
  (hthis : (stakes.map (·.1.stakeThisEpoch)).sum * 2 < 2 ^ 128)
  (hnext : (stakes.map (·.1.stakeNextEpoch)).sum * 2 < 2 ^ 128)
include hnodup hslashed hthis hnext

theorem processApproval_eq (hinv : Invariant (accountIdToStakes stakes) mode self) (now : ℕ)
    (approval : Approval) :
    ∃ readiness self', self.processApproval now approval stakes mode = some (readiness, self') ∧
      Invariant (accountIdToStakes stakes) mode self' ∧
      ∀ since, readiness = .readySince since →
        ∃ tracker, self'.approvalTrackers approval.inner = some tracker ∧ PassesThreshold tracker := by
  obtain ⟨s1, hw, hinv1, hlast1, hnot⟩ := withdrawLastApproval_eq hinv approval.accountId
  unfold processApproval
  rw [hw]
  simp only [Option.pure_def, Option.bind_eq_bind, Option.bind_some]
  rw [if_neg (by rw [length_accountIdToStakes hnodup hslashed]; exact not_not.mpr rfl)]
  by_cases hstaked : (accountIdToStakes stakes).get? approval.accountId = none
  · rw [if_pos hstaked]
    exact ⟨_, _, rfl, hinv1, fun _ h => by cases h⟩
  rw [if_neg hstaked]
  have hthisM : ((accountIdToStakes stakes).entries.map (·.2.1)).sum * 2 < 2 ^ 128 := by
    rwa [sum_entries_accountIdToStakes hnodup hslashed]
  have hnextM : ((accountIdToStakes stakes).entries.map (·.2.2)).sum * 2 < 2 ^ 128 := by
    rwa [sum_entries_accountIdToStakes hnodup hslashed]
  obtain ⟨t0, ht0, hinv0, hfresh0, hlast0⟩ : ∃ t0,
      (match s1.approvalTrackers approval.inner with
        | some tracker => some tracker
        | none => DoomslugApprovalsTracker.new (accountIdToStakes stakes) mode) = some t0 ∧
      DoomslugApprovalsTracker.Invariant (accountIdToStakes stakes) mode t0 ∧
      t0.witness.get? approval.accountId = none ∧
      ∀ b ∈ t0.witness.keys, s1.lastApprovalPerAccount b = some approval.inner := by
    cases ht : s1.approvalTrackers approval.inner with
    | some t0 =>
      exact ⟨t0, rfl, hinv1.tracker_invariant _ _ ht,
        (BTreeMap.get?_eq_none_iff _ _).mpr (hnot _ _ ht), fun b hb => hinv1.witness_last _ _ b ht hb⟩
    | none =>
      exact ⟨_, new_eq (by omega) (by omega), invariant_new_eq _ rfl, BTreeMap.get?_empty _,
        fun b hb => by simp at hb⟩
  rw [ht0, Option.bind_some]
  obtain ⟨readiness, t1, hrun, hinvt1, hwit1, hready⟩ :=
    processApproval_fresh now hinv0 hfresh0 hstaked hthisM hnextM
  rw [hrun, Option.bind_some]
  refine ⟨readiness, _, rfl, ⟨fun q t ht => ?_, fun q t b ht hb => ?_⟩,
    fun since h => ⟨t1, by simp, hready since h⟩⟩
  · simp only [Function.update_apply] at ht
    split_ifs at ht
    · rw [← Option.some.inj ht]
      exact hinvt1
    · exact hinv1.tracker_invariant q t ht
  · simp only [Function.update_apply] at ht ⊢
    split_ifs at ht with hq
    · -- a witness of the updated tracker is the approval's account or one it had before
      rw [← Option.some.inj ht, hwit1] at hb
      rcases List.mem_cons.mp (((BTreeMap.keys_perm_insert hfresh0 approval).mem_iff).mp hb)
        with rfl | hb
      · rw [if_pos rfl, hq]
      · have hba : b ≠ approval.accountId := fun h =>
          (BTreeMap.get?_eq_none_iff _ _).mp hfresh0 (h ▸ hb)
        rw [if_neg hba, hlast0 b hb, hq]
    · have hba : b ≠ approval.accountId := fun h => hnot q t ht (h ▸ hb)
      rw [if_neg hba]
      exact hinv1.witness_last q t b ht hb

theorem Reachable.invariant (hreach : Reachable stakes mode self) :
    Invariant (accountIdToStakes stakes) mode self := by
  induction hreach with
  | new => exact invariant_new
  | step now approval _ hrun ih =>
    obtain ⟨readiness, trackers', hrun', hinv', -⟩ :=
      processApproval_eq hnodup hslashed hthis hnext ih now approval
    rw [hrun] at hrun'
    cases hrun'
    exact hinv'

/-- A block carrying the signatures of exactly the accounts `W` passes validation when their
stakes are more than two thirds of each epoch's total, or the next epoch has none. -/
theorem canApprovedBlockBeProduced_witnesses {W : List AccountId} (hW : W.Nodup)
    (hsub : W ⊆ stakes.map (·.1.accountId))
    (hfirst : (W.map fun a => (stakeOf stakes a).1).sum >
      (stakes.map (·.1.stakeThisEpoch)).sum * 2 / 3)
    (hsecond : (W.map fun a => (stakeOf stakes a).2).sum >
        (stakes.map (·.1.stakeNextEpoch)).sum * 2 / 3 ∨
      (stakes.map (·.1.stakeNextEpoch)).sum = 0) :
    canApprovedBlockBeProduced .twoThirds
      (stakes.map fun s => if s.1.accountId ∈ W then some () else none)
      (stakes.map fun s => (s.1.stakeThisEpoch, s.1.stakeNextEpoch, s.2)) = some true := by
  -- no entry is slashed, so every approval is counted
  have hcounted : ((stakes.map fun s => if s.1.accountId ∈ W then some () else none).zip
      (stakes.map fun s => (s.1.stakeThisEpoch, s.1.stakeNextEpoch, s.2))).filter
        (fun p => !p.2.2.2) =
      stakes.map fun s => (if s.1.accountId ∈ W then some () else none,
        (s.1.stakeThisEpoch, s.1.stakeNextEpoch, s.2)) := by
    rw [List.zip_map', List.filter_eq_self]
    intro p hp
    obtain ⟨s, hs, rfl⟩ := List.mem_map.mp hp
    simp [hslashed s hs]
  have happroved1 : (stakes.map fun s => if s.1.accountId ∈ W then s.1.stakeThisEpoch else 0).sum =
      (W.map fun a => (stakeOf stakes a).1).sum :=
    sum_ite_mem_eq hnodup hslashed (·.1) hW hsub
  have happroved2 : (stakes.map fun s => if s.1.accountId ∈ W then s.1.stakeNextEpoch else 0).sum =
      (W.map fun a => (stakeOf stakes a).2).sum :=
    sum_ite_mem_eq hnodup hslashed (·.2) hW hsub
  have hle1 : (stakes.map fun s => if s.1.accountId ∈ W then s.1.stakeThisEpoch else 0).sum ≤
      (stakes.map (·.1.stakeThisEpoch)).sum :=
    List.sum_le_sum fun s _ => by split_ifs <;> omega
  have hle2 : (stakes.map fun s => if s.1.accountId ∈ W then s.1.stakeNextEpoch else 0).sum ≤
      (stakes.map (·.1.stakeNextEpoch)).sum :=
    List.sum_le_sum fun s _ => by split_ifs <;> omega
  have hisSome : ∀ s : ApprovalStake × Bool,
      ((if s.1.accountId ∈ W then some () else none).isSome = true) ↔ s.1.accountId ∈ W := by
    intro s
    split_ifs with h <;> simp [h]
  unfold canApprovedBlockBeProduced
  rw [if_neg (by decide), hcounted]
  simp only [List.map_map, Function.comp_def, hisSome]
  rw [U128.checkedSum_of_lt (by omega), U128.checkedSum_of_lt (by omega),
    U128.checkedSum_of_lt (by omega), U128.checkedSum_of_lt (by omega)]
  simp only [Option.pure_def, Option.bind_eq_bind, Option.bind_some]
  rw [U128.checkedMul_of_lt hthis, U128.checkedMul_of_lt hnext]
  simp only [Option.bind_some, happroved1, happroved2, Option.some.injEq, Bool.and_eq_true,
    Bool.or_eq_true, decide_eq_true_eq]
  exact ⟨.inl hfirst, hsecond.imp_right fun h => by rw [h]⟩

/-- A tracker past the readiness threshold under `TwoThirds` has witnesses whose signatures make
a block that passes validation. -/
theorem canApprovedBlockBeProduced_of_passesThreshold {tracker : DoomslugApprovalsTracker}
    (htinv : DoomslugApprovalsTracker.Invariant (accountIdToStakes stakes) .twoThirds tracker)
    (hpass : PassesThreshold tracker) :
    canApprovedBlockBeProduced .twoThirds
      (stakes.map fun s => if s.1.accountId ∈ tracker.witness.keys then some () else none)
      (stakes.map fun s => (s.1.stakeThisEpoch, s.1.stakeNextEpoch, s.2)) = some true := by
  obtain ⟨happroved1, happroved2⟩ := approvedStake_eq_stakeOf hnodup hslashed htinv
  have htotal1 : tracker.totalStakeThisEpoch = (stakes.map (·.1.stakeThisEpoch)).sum := by
    rw [htinv.totalStakeThisEpoch_eq, sum_entries_accountIdToStakes hnodup hslashed]
  have htotal2 : tracker.totalStakeNextEpoch = (stakes.map (·.1.stakeNextEpoch)).sum := by
    rw [htinv.totalStakeNextEpoch_eq, sum_entries_accountIdToStakes hnodup hslashed]
  -- under `TwoThirds` only the stake test can have passed
  rcases hpass with ⟨hfirst, hsecond⟩ | hmode
  · rw [happroved1, htotal1] at hfirst
    rw [happroved2, htotal2] at hsecond
    exact canApprovedBlockBeProduced_witnesses hnodup hslashed hthis hnext
      tracker.witness.keys_nodup (witness_subset_accounts hnodup hslashed htinv) hfirst hsecond
  · rw [htinv.thresholdMode_eq] at hmode
    cases hmode

end Step

/-- `process_approval` at one height, over a stakes list of distinct, unslashed producers whose
stakes of each epoch stay below `2^127` in total: from every reachable state an approval never
panics; an account is a witness only of the tracker its last approval names, so of at most one;
each tracker's approved stakes are its witnesses' stakes; and a tracker that reports `ReadySince`
under `TwoThirds` has witnesses whose block passes `can_approved_block_be_produced`. -/
theorem processApproval_accounting (stakes : List (ApprovalStake × Bool))
    (mode : DoomslugThresholdMode) (hnodup : (stakes.map (·.1.accountId)).Nodup)
    (hslashed : ∀ s ∈ stakes, s.2 = false)
    (hthis : (stakes.map (·.1.stakeThisEpoch)).sum * 2 < 2 ^ 128)
    (hnext : (stakes.map (·.1.stakeNextEpoch)).sum * 2 < 2 ^ 128)
    (trackers : DoomslugApprovalsTrackersAtHeight) (hreach : Reachable stakes mode trackers) :
    (∀ parent tracker a, trackers.approvalTrackers parent = some tracker →
      a ∈ tracker.witness.keys → trackers.lastApprovalPerAccount a = some parent) ∧
    (∀ parent tracker, trackers.approvalTrackers parent = some tracker →
      tracker.approvedStakeThisEpoch = (tracker.witness.keys.map fun a => (stakeOf stakes a).1).sum ∧
      tracker.approvedStakeNextEpoch =
        (tracker.witness.keys.map fun a => (stakeOf stakes a).2).sum) ∧
    ∀ now approval, ∃ readiness trackers',
      trackers.processApproval now approval stakes mode = some (readiness, trackers') ∧
      (mode = .twoThirds → ∀ since, readiness = .readySince since →
        ∃ tracker, trackers'.approvalTrackers approval.inner = some tracker ∧
          canApprovedBlockBeProduced .twoThirds
            (stakes.map fun s => if s.1.accountId ∈ tracker.witness.keys then some () else none)
            (stakes.map fun s => (s.1.stakeThisEpoch, s.1.stakeNextEpoch, s.2)) = some true) := by
  have hinv := hreach.invariant hnodup hslashed hthis hnext
  refine ⟨hinv.witness_last, fun parent tracker ht =>
    approvedStake_eq_stakeOf hnodup hslashed (hinv.tracker_invariant parent tracker ht),
    fun now approval => ?_⟩
  obtain ⟨readiness, trackers', hrun, hinv', hready⟩ :=
    processApproval_eq hnodup hslashed hthis hnext hinv now approval
  refine ⟨readiness, trackers', hrun, fun hmode since hsince => ?_⟩
  obtain ⟨tracker, ht, hpass⟩ := hready since hsince
  subst hmode
  exact ⟨tracker, ht, canApprovedBlockBeProduced_of_passesThreshold hnodup hslashed hthis hnext
    (hinv'.tracker_invariant _ tracker ht) hpass⟩

/-- Three producers with their stakes in this epoch and the next. -/
def threeStakes : List (ApprovalStake × Bool) :=
  [(⟨"alice", 2, 2⟩, false), (⟨"bob", 1, 1⟩, false), (⟨"carol", 1, 1⟩, false)]

/-- `alice` and `bob` endorse one parent, whose tracker is then ready, and both re-vote to skip
from height 5: the endorsement's tracker loses both witnesses and is dropped. -/
theorem processApproval_accounting_revote :
    ∃ trackers, Reachable threeStakes .twoThirds trackers ∧
      trackers.approvalTrackers (.endorsement ⟨Vector.replicate 32 7⟩) = none ∧
      trackers.lastApprovalPerAccount "alice" = some (.skip 5) ∧
      trackers.lastApprovalPerAccount "bob" = some (.skip 5) ∧
      (∀ parent tracker a, trackers.approvalTrackers parent = some tracker →
        a ∈ tracker.witness.keys → trackers.lastApprovalPerAccount a = some parent) ∧
      (∀ parent tracker, trackers.approvalTrackers parent = some tracker →
        tracker.approvedStakeThisEpoch =
          (tracker.witness.keys.map fun a => (stakeOf threeStakes a).1).sum ∧
        tracker.approvedStakeNextEpoch =
          (tracker.witness.keys.map fun a => (stakeOf threeStakes a).2).sum) ∧
      ∀ now approval, ∃ readiness trackers',
        trackers.processApproval now approval threeStakes .twoThirds = some (readiness, trackers') ∧
        (DoomslugThresholdMode.twoThirds = .twoThirds → ∀ since, readiness = .readySince since →
          ∃ tracker, trackers'.approvalTrackers approval.inner = some tracker ∧
            canApprovedBlockBeProduced .twoThirds
              (threeStakes.map fun s =>
                if s.1.accountId ∈ tracker.witness.keys then some () else none)
              (threeStakes.map fun s => (s.1.stakeThisEpoch, s.1.stakeNextEpoch, s.2)) =
                some true) := by
  obtain ⟨t₁, t₂, t₃, t₄, r₁, r₂, r₃, r₄, h₁, h₂, h₃, h₄, hdropped, halice, hbob⟩ :
      ∃ t₁ t₂ t₃ t₄ r₁ r₂ r₃ r₄,
        new.processApproval 0 ⟨.endorsement ⟨Vector.replicate 32 7⟩, "alice"⟩ threeStakes
          .twoThirds = some (r₁, t₁) ∧
        t₁.processApproval 1 ⟨.endorsement ⟨Vector.replicate 32 7⟩, "bob"⟩ threeStakes
          .twoThirds = some (r₂, t₂) ∧
        t₂.processApproval 2 ⟨.skip 5, "alice"⟩ threeStakes .twoThirds = some (r₃, t₃) ∧
        t₃.processApproval 3 ⟨.skip 5, "bob"⟩ threeStakes .twoThirds = some (r₄, t₄) ∧
        t₄.approvalTrackers (.endorsement ⟨Vector.replicate 32 7⟩) = none ∧
        t₄.lastApprovalPerAccount "alice" = some (.skip 5) ∧
        t₄.lastApprovalPerAccount "bob" = some (.skip 5) :=
    ⟨_, _, _, _, _, _, _, _, rfl, rfl, rfl, rfl, rfl, rfl, rfl⟩
  have hreach : Reachable threeStakes .twoThirds t₄ :=
    (((Reachable.new.step 0 _ h₁).step 1 _ h₂).step 2 _ h₃).step 3 _ h₄
  exact ⟨t₄, hreach, hdropped, halice, hbob,
    processApproval_accounting threeStakes .twoThirds (by decide) (by decide) (by decide)
      (by decide) t₄ hreach⟩

/-- Two panics of `process_approval`: a slashed producer fails the assertion that every
producer has an entry in the map, and a total of `2^127` overflows `total * 2`. -/
theorem processApproval_slashed_or_overflow_panics :
    new.processApproval 0 ⟨.skip 0, "alice"⟩ [(⟨"alice", 1, 1⟩, true)] .twoThirds = none ∧
    new.processApproval 0 ⟨.skip 0, "alice"⟩ [(⟨"alice", 2 ^ 127, 0⟩, false)] .twoThirds =
      none := by
  decide

end DoomslugApprovalsTrackersAtHeight

end Height

end Nearcore.Doomslug

