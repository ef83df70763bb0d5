import Nearcore.ValidatorKickout
import Nearcore.RustArith

/-!
# The rewards of an epoch

`RewardCalculator::calculate_reward` (`epoch-manager/src/reward_calculator.rs`) mints
the inflation of an epoch: a share of the total supply, set by the maximal inflation
rate, of which the protocol treasury takes its rate and the validators the rest, each in
proportion to its stake and scaled by its uptime between the two online thresholds.

The reward of a validator is at most its proportional share, nothing below the lower
threshold and its whole share from the upper one on; the amount minted is the treasury's
part and the validators' rewards, and stays within the epoch's reward
(`calculateReward_within_budget`).  Two cases fall outside: with no validator the
treasury's part is handed out but the amount minted is zero, and before
`ChunkOnlyProducers` a validator with no block or no chunk expected gets nothing
whatever its uptime (`calculateReward_empty_or_legacy`).

The counts of blocks and chunks are `u64`s, whose products overflow, and panic, once the
counts pass `2 ^ 31`; the `U256` and `u128` products are exact here, as if nothing
overflowed.  A division by zero, a subtraction below zero and an overflow, which panic, are
`none`.
-/

namespace Nearcore.EpochManager

/-- `Rational32`, by its numerator and denominator as stored. -/
structure Rational32 where
  numer : Int32
  denom : Int32
  deriving DecidableEq, Repr

namespace Rational32

/-- `*r.numer() as u64`: a negative `i32` is sign-extended, so it wraps modulo `2 ^ 64`. -/
def numerAsU64 (r : Rational32) : ℕ := (r.numer.toInt % 2 ^ 64).toNat

/-- `*r.denom() as u64`. -/
def denomAsU64 (r : Rational32) : ℕ := (r.denom.toInt % 2 ^ 64).toNat

end Rational32

namespace U256

/-- `U256` subtraction; `none` where it panics below zero. -/
def checkedSub (a b : ℕ) : Option ℕ := if b ≤ a then some (a - b) else none

/-- `U256` division; `none` where it panics on a zero divisor. -/
def checkedDiv (a b : ℕ) : Option ℕ := if b = 0 then none else some (a / b)

end U256

namespace U64

/-- `a + b` on `u64` counts with overflow checks, which the release profile keeps: `none`,
a panic, when it does not fit. -/
def checkedAdd (a b : ℕ) : Option ℕ := if a + b < 2 ^ 64 then some (a + b) else none

/-- `a * b` on `u64` counts with overflow checks. -/
def checkedMul (a b : ℕ) : Option ℕ := if a * b < 2 ^ 64 then some (a * b) else none

theorem checkedAdd_of_lt {a b : ℕ} (h : a + b < 2 ^ 64) : checkedAdd a b = some (a + b) :=
  if_pos h

theorem checkedMul_of_lt {a b : ℕ} (h : a * b < 2 ^ 64) : checkedMul a b = some (a * b) :=
  if_pos h

end U64

/-- `RewardCalculator`. -/
structure RewardCalculator where
  maxInflationRate : Rational32
  numBlocksPerYear : ℕ
  epochLength : ℕ
  protocolRewardRate : Rational32
  protocolTreasuryAccount : AccountId
  onlineMinThreshold : Rational32
  onlineMaxThreshold : Rational32
  numSecondsPerYear : ℕ

def numNsInSecond : ℕ := 1000000000

def enableInflationProtocolVersion : ℕ := 36

/-- `checked_feature!("stable", RectifyInflation, version)`. -/
def rectifyInflation (version : ℕ) : Bool := decide (45 ≤ version)

/-- Whether the rates of the epoch are the hardcoded `1 / 20` and `1 / 10` rather than the
calculator's own. -/
def useHardcodedValue (protocolVersion genesisProtocolVersion : ℕ) : Bool :=
  decide (genesisProtocolVersion < protocolVersion) &&
    decide (enableInflationProtocolVersion ≤ protocolVersion)

/-- The uptime of a validator as a fraction: its block and its chunk ratio, their mean
when both are expected, and `0 / 1` when neither is.  The mean is taken on the `u64`
counts; `none` where a product or the sum overflows. -/
def averageProduced (stats : BlockChunkValidatorStats) : Option (ℕ × ℕ) :=
  if stats.blockStats.expected = 0 ∧ stats.chunkStats.expected = 0 then some (0, 1)
  else if stats.blockStats.expected = 0 then
    some (stats.chunkStats.produced, stats.chunkStats.expected)
  else if stats.chunkStats.expected = 0 then
    some (stats.blockStats.produced, stats.blockStats.expected)
  else do
    let blockTerm ← U64.checkedMul stats.blockStats.produced stats.chunkStats.expected
    let chunkTerm ← U64.checkedMul stats.chunkStats.produced stats.blockStats.expected
    let numer ← U64.checkedAdd blockTerm chunkTerm
    let twice ← U64.checkedMul 2 stats.chunkStats.expected
    let denom ← U64.checkedMul twice stats.blockStats.expected
    pure (numer, denom)

namespace RewardCalculator

/-- The maximal inflation rate of the epoch: `1 / 20` once the hardcoded value is used. -/
def epochMaxInflationRate (self : RewardCalculator) (protocolVersion genesisProtocolVersion : ℕ) :
    Rational32 :=
  if useHardcodedValue protocolVersion genesisProtocolVersion then ⟨1, 20⟩ else self.maxInflationRate

/-- The protocol reward rate of the epoch: `1 / 10` once the hardcoded value is used. -/
def epochProtocolRewardRate (self : RewardCalculator)
    (protocolVersion genesisProtocolVersion : ℕ) : Rational32 :=
  if useHardcodedValue protocolVersion genesisProtocolVersion then ⟨1, 10⟩
  else self.protocolRewardRate

/-- The reward of an epoch, by the formula of the protocol version. -/
def epochTotalReward (self : RewardCalculator) (maxInflationRate : Rational32)
    (totalSupply protocolVersion epochDuration : ℕ) : Option ℕ :=
  if rectifyInflation protocolVersion then
    U256.checkedDiv (maxInflationRate.numerAsU64 * totalSupply * epochDuration)
      (self.numSecondsPerYear * maxInflationRate.denomAsU64 * numNsInSecond)
  else
    U256.checkedDiv (maxInflationRate.numerAsU64 * totalSupply * self.epochLength)
      (self.numBlocksPerYear * maxInflationRate.denomAsU64)

/-- Whether a validator gets nothing: its uptime `average` is below the lower threshold, or
(with `ChunkOnlyProducers`) nothing was expected of it, or (before) no block or no chunk
was. -/
def noReward (self : RewardCalculator) (protocolVersion : ℕ) (stats : BlockChunkValidatorStats)
    (average : ℕ × ℕ) : Prop :=
  average.1 * self.onlineMinThreshold.denomAsU64 <
      self.onlineMinThreshold.numerAsU64 * average.2 ∨
    (chunkOnlyProducers protocolVersion = true ∧ stats.chunkStats.expected = 0 ∧
      stats.blockStats.expected = 0) ∨
    (chunkOnlyProducers protocolVersion = false ∧
      (stats.chunkStats.expected = 0 ∨ stats.blockStats.expected = 0))

instance (self : RewardCalculator) (protocolVersion : ℕ) (stats : BlockChunkValidatorStats)
    (average : ℕ × ℕ) : Decidable (self.noReward protocolVersion stats average) :=
  inferInstanceAs (Decidable (_ ∨ _ ∨ _))

/-- The reward of one validator in the loop of `calculate_reward`; `none` where it panics,
on an overflow of the counts, on a validator without a stake or on a division by zero. -/
def validatorReward (self : RewardCalculator) (validatorStake : BTreeMap AccountId ℕ)
    (protocolVersion epochValidatorReward totalStake : ℕ) (accountId : AccountId)
    (stats : BlockChunkValidatorStats) : Option ℕ := do
  let average ← averageProduced stats
  if self.noReward protocolVersion stats average then some 0
  else do
    let stake ← validatorStake.get? accountId
    let onlineMinNumer := self.onlineMinThreshold.numerAsU64
    let onlineMinDenom := self.onlineMinThreshold.denomAsU64
    let onlineMaxNumer := self.onlineMaxThreshold.numerAsU64
    let onlineMaxDenom := self.onlineMaxThreshold.denomAsU64
    let onlineNumer ← U256.checkedSub (onlineMaxNumer * onlineMinDenom)
      (onlineMinNumer * onlineMaxDenom)
    let uptimeNumer ← U256.checkedSub (average.1 * onlineMinDenom) (onlineMinNumer * average.2)
    let uptimeNumer := uptimeNumer * onlineMaxDenom
    let uptimeDenum := onlineNumer * average.2
    -- the multiplier `min(1, uptime_numer / uptime_denum)`
    let uptimeNumer := if uptimeNumer > uptimeDenum then uptimeDenum else uptimeNumer
    let reward ← U256.checkedDiv (epochValidatorReward * uptimeNumer * stake) uptimeDenum
    U256.checkedDiv reward totalStake

/-- One turn of the loop of `calculate_reward`: the reward of a validator is recorded and
added to the amount minted. -/
def rewardStep (self : RewardCalculator) (validatorStake : BTreeMap AccountId ℕ)
    (protocolVersion epochValidatorReward totalStake : ℕ)
    (acc : BTreeMap AccountId ℕ × ℕ) (entry : AccountId × BlockChunkValidatorStats) :
    Option (BTreeMap AccountId ℕ × ℕ) := do
  let reward ← self.validatorReward validatorStake protocolVersion epochValidatorReward totalStake
    entry.1 entry.2
  pure (acc.1.insert entry.1 reward, acc.2 + reward)

/-- `RewardCalculator::calculate_reward`: the rewards by account, the treasury's
included, and the amount minted; `none` where it panics. -/
def calculateReward (self : RewardCalculator)
    (validatorBlockChunkStats : BTreeMap AccountId BlockChunkValidatorStats)
    (validatorStake : BTreeMap AccountId ℕ)
    (totalSupply protocolVersion genesisProtocolVersion epochDuration : ℕ) :
    Option (BTreeMap AccountId ℕ × ℕ) := do
  let maxInflationRate := self.epochMaxInflationRate protocolVersion genesisProtocolVersion
  let protocolRewardRate := self.epochProtocolRewardRate protocolVersion genesisProtocolVersion
  let epochTotalReward ← self.epochTotalReward maxInflationRate totalSupply protocolVersion
    epochDuration
  let epochProtocolTreasury ← U256.checkedDiv (epochTotalReward * protocolRewardRate.numerAsU64)
    protocolRewardRate.denomAsU64
  let res := BTreeMap.empty.insert self.protocolTreasuryAccount epochProtocolTreasury
  if validatorBlockChunkStats.size = 0 then
    return (res, 0)
  -- a `u128` subtraction
  let epochValidatorReward ← U128.checkedSub epochTotalReward epochProtocolTreasury
  let totalStake := validatorStake.values.sum
  validatorBlockChunkStats.entries.foldlM
    (self.rewardStep validatorStake protocolVersion epochValidatorReward totalStake)
    (res, epochProtocolTreasury)

end RewardCalculator

/-! ## Rates and uptimes as rationals -/

namespace Rational32

/-- The value of `r`. -/
def toRat (r : Rational32) : ℚ := (r.numer.toInt : ℚ) / r.denom.toInt

variable {r : Rational32}

theorem toNat_emod_of_nonneg {x : Int32} (h : 0 ≤ x.toInt) :
    (((x.toInt % 2 ^ 64).toNat : ℕ) : ℚ) = x.toInt := by
  have hlt := Int32.toInt_lt x
  rw [Int.emod_eq_of_lt h (by omega)]
  exact_mod_cast Int.toNat_of_nonneg h

theorem denomAsU64_pos (hd : 0 < r.denom.toInt) : 0 < r.denomAsU64 := by
  have hlt := Int32.toInt_lt r.denom
  rw [denomAsU64, Int.emod_eq_of_lt hd.le (by omega)]
  omega

theorem numer_nonneg (hd : 0 < r.denom.toInt) (h : 0 ≤ r.toRat) : 0 ≤ r.numer.toInt := by
  by_contra hneg
  have hpos : (0 : ℚ) < r.denom.toInt := by exact_mod_cast hd
  have : r.toRat < 0 := div_neg_of_neg_of_pos (by exact_mod_cast not_le.mp hneg) hpos
  linarith

/-- Read with a positive denominator and a non-negative numerator, the two `as u64`
halves of `r` are its value. -/
theorem toRat_eq (hd : 0 < r.denom.toInt) (hn : 0 ≤ r.numer.toInt) :
    r.toRat = r.numerAsU64 / r.denomAsU64 := by
  rw [toRat, numerAsU64, denomAsU64, toNat_emod_of_nonneg hn, toNat_emod_of_nonneg hd.le]

theorem div_lt_toRat_iff (hd : 0 < r.denom.toInt) (hn : 0 ≤ r.numer.toInt) {a b : ℕ}
    (hb : 0 < b) : (a : ℚ) / b < r.toRat ↔ a * r.denomAsU64 < r.numerAsU64 * b := by
  rw [toRat_eq hd hn, div_lt_div_iff₀ (by exact_mod_cast hb) (by exact_mod_cast denomAsU64_pos hd)]
  norm_cast

theorem toRat_le_div_iff (hd : 0 < r.denom.toInt) (hn : 0 ≤ r.numer.toInt) {a b : ℕ}
    (hb : 0 < b) : r.toRat ≤ (a : ℚ) / b ↔ r.numerAsU64 * b ≤ a * r.denomAsU64 := by
  rw [toRat_eq hd hn, div_le_div_iff₀ (by exact_mod_cast denomAsU64_pos hd) (by exact_mod_cast hb)]
  norm_cast

theorem toRat_le_one_iff (hd : 0 < r.denom.toInt) (hn : 0 ≤ r.numer.toInt) :
    r.toRat ≤ 1 ↔ r.numerAsU64 ≤ r.denomAsU64 := by
  rw [toRat_eq hd hn, div_le_one (by exact_mod_cast denomAsU64_pos hd)]
  norm_cast

theorem toRat_lt_toRat_iff {s : Rational32} (hd : 0 < r.denom.toInt) (hn : 0 ≤ r.numer.toInt)
    (hd' : 0 < s.denom.toInt) (hn' : 0 ≤ s.numer.toInt) :
    r.toRat < s.toRat ↔ r.numerAsU64 * s.denomAsU64 < s.numerAsU64 * r.denomAsU64 := by
  rw [toRat_eq hd hn, toRat_eq hd' hn', div_lt_div_iff₀ (by exact_mod_cast denomAsU64_pos hd)
    (by exact_mod_cast denomAsU64_pos hd')]
  norm_cast

end Rational32

/-- The fraction `average_produced` is, in exact arithmetic. -/
def averageFraction (stats : BlockChunkValidatorStats) : ℕ × ℕ :=
  if stats.blockStats.expected = 0 ∧ stats.chunkStats.expected = 0 then (0, 1)
  else if stats.blockStats.expected = 0 then (stats.chunkStats.produced, stats.chunkStats.expected)
  else if stats.chunkStats.expected = 0 then (stats.blockStats.produced, stats.blockStats.expected)
  else
    (stats.blockStats.produced * stats.chunkStats.expected +
        stats.chunkStats.produced * stats.blockStats.expected,
      2 * stats.chunkStats.expected * stats.blockStats.expected)

/-- The uptime of a validator, as the loop of `calculate_reward` computes it. -/
def uptime (stats : BlockChunkValidatorStats) : ℚ :=
  ((averageFraction stats).1 : ℚ) / (averageFraction stats).2

/-- With at most `2 ^ 31` blocks and chunks expected and no more produced, no `u64` product
overflows and `average_produced` is the exact fraction. -/
theorem averageProduced_eq_some {stats : BlockChunkValidatorStats}
    (hblock : stats.blockStats.produced ≤ stats.blockStats.expected ∧
      stats.blockStats.expected ≤ 2 ^ 31)
    (hchunk : stats.chunkStats.produced ≤ stats.chunkStats.expected ∧
      stats.chunkStats.expected ≤ 2 ^ 31) :
    averageProduced stats = some (averageFraction stats) := by
  obtain ⟨hbp, hbe⟩ := hblock
  obtain ⟨hcp, hce⟩ := hchunk
  have hblockTerm : stats.blockStats.produced * stats.chunkStats.expected ≤ 2 ^ 31 * 2 ^ 31 :=
    Nat.mul_le_mul (hbp.trans hbe) hce
  have hchunkTerm : stats.chunkStats.produced * stats.blockStats.expected ≤ 2 ^ 31 * 2 ^ 31 :=
    Nat.mul_le_mul (hcp.trans hce) hbe
  have htwice : 2 * stats.chunkStats.expected ≤ 2 * 2 ^ 31 := Nat.mul_le_mul_left 2 hce
  have hdenom : 2 * stats.chunkStats.expected * stats.blockStats.expected ≤ 2 * 2 ^ 31 * 2 ^ 31 :=
    Nat.mul_le_mul htwice hbe
  unfold averageProduced averageFraction
  split_ifs
  · rfl
  · rfl
  · rfl
  · simp only [U64.checkedMul_of_lt (hblockTerm.trans_lt (by norm_num)),
      U64.checkedMul_of_lt (hchunkTerm.trans_lt (by norm_num)),
      U64.checkedAdd_of_lt ((Nat.add_le_add hblockTerm hchunkTerm).trans_lt (by norm_num)),
      U64.checkedMul_of_lt (htwice.trans_lt (by norm_num)),
      U64.checkedMul_of_lt (hdenom.trans_lt (by norm_num)), Option.bind_eq_bind, Option.bind_some,
      Option.pure_def]

/-- Beyond the bound the products overflow: with `2 ^ 32` blocks and chunks expected, the
code panics. -/
example : averageProduced ⟨⟨2 ^ 32, 2 ^ 32⟩, ⟨2 ^ 32, 2 ^ 32⟩⟩ = none := by decide

theorem averageFraction_snd_pos (stats : BlockChunkValidatorStats) :
    0 < (averageFraction stats).2 := by
  unfold averageFraction
  split_ifs with hboth hblock hchunk
  · exact Nat.one_pos
  · -- no block was expected, so some chunk was
    exact Nat.pos_of_ne_zero fun hchunk => hboth ⟨hblock, hchunk⟩
  · exact Nat.pos_of_ne_zero hblock
  · exact Nat.mul_pos (Nat.mul_pos Nat.two_pos (Nat.pos_of_ne_zero hchunk))
      (Nat.pos_of_ne_zero hblock)

theorem uptime_of_expected_eq_zero {stats : BlockChunkValidatorStats}
    (hblock : stats.blockStats.expected = 0) (hchunk : stats.chunkStats.expected = 0) :
    uptime stats = 0 := by
  simp [uptime, averageFraction, hblock, hchunk]

/-! ## The reward of one validator -/

namespace RewardCalculator

/-- What the genesis config gives a calculator, as `Ratio::new` builds its rates: positive
denominators, non-negative rates, a protocol reward rate of at most one, a lower online
threshold below the upper one, and years of some blocks and seconds. -/
structure Valid (calculator : RewardCalculator) : Prop where
  maxInflationRate_denom_pos : 0 < calculator.maxInflationRate.denom.toInt
  protocolRewardRate_denom_pos : 0 < calculator.protocolRewardRate.denom.toInt
  onlineMinThreshold_denom_pos : 0 < calculator.onlineMinThreshold.denom.toInt
  onlineMaxThreshold_denom_pos : 0 < calculator.onlineMaxThreshold.denom.toInt
  protocolRewardRate_nonneg : 0 ≤ calculator.protocolRewardRate.toRat
  protocolRewardRate_le_one : calculator.protocolRewardRate.toRat ≤ 1
  onlineMinThreshold_nonneg : 0 ≤ calculator.onlineMinThreshold.toRat
  onlineMinThreshold_lt : calculator.onlineMinThreshold.toRat < calculator.onlineMaxThreshold.toRat
  numBlocksPerYear_pos : 0 < calculator.numBlocksPerYear
  numSecondsPerYear_pos : 0 < calculator.numSecondsPerYear

/-- The numerator of the uptime multiplier before it is capped at one. -/
def uptimeNumer (self : RewardCalculator) (average : ℕ × ℕ) : ℕ :=
  (average.1 * self.onlineMinThreshold.denomAsU64 -
      self.onlineMinThreshold.numerAsU64 * average.2) *
    self.onlineMaxThreshold.denomAsU64

/-- The denominator of the uptime multiplier. -/
def uptimeDenum (self : RewardCalculator) (average : ℕ × ℕ) : ℕ :=
  (self.onlineMaxThreshold.numerAsU64 * self.onlineMinThreshold.denomAsU64 -
      self.onlineMinThreshold.numerAsU64 * self.onlineMaxThreshold.denomAsU64) *
    average.2

section Validator

variable {self : RewardCalculator} (hvalid : self.Valid)
include hvalid

theorem Valid.onlineMaxThreshold_numer_nonneg : 0 ≤ self.onlineMaxThreshold.numer.toInt :=
  Rational32.numer_nonneg hvalid.onlineMaxThreshold_denom_pos
    (hvalid.onlineMinThreshold_nonneg.trans hvalid.onlineMinThreshold_lt.le)

/-- The thresholds read as the code reads them: the lower below the upper. -/
theorem Valid.online_lt :
    self.onlineMinThreshold.numerAsU64 * self.onlineMaxThreshold.denomAsU64 <
      self.onlineMaxThreshold.numerAsU64 * self.onlineMinThreshold.denomAsU64 :=
  (Rational32.toRat_lt_toRat_iff hvalid.onlineMinThreshold_denom_pos
    (Rational32.numer_nonneg hvalid.onlineMinThreshold_denom_pos hvalid.onlineMinThreshold_nonneg)
    hvalid.onlineMaxThreshold_denom_pos hvalid.onlineMaxThreshold_numer_nonneg).mp
    hvalid.onlineMinThreshold_lt

theorem Valid.below_iff (stats : BlockChunkValidatorStats) :
    (averageFraction stats).1 * self.onlineMinThreshold.denomAsU64 <
        self.onlineMinThreshold.numerAsU64 * (averageFraction stats).2 ↔
      uptime stats < self.onlineMinThreshold.toRat :=
  (Rational32.div_lt_toRat_iff hvalid.onlineMinThreshold_denom_pos
    (Rational32.numer_nonneg hvalid.onlineMinThreshold_denom_pos hvalid.onlineMinThreshold_nonneg)
    (averageFraction_snd_pos stats)).symm

theorem Valid.uptimeDenum_pos (stats : BlockChunkValidatorStats) :
    0 < self.uptimeDenum (averageFraction stats) :=
  Nat.mul_pos (Nat.sub_pos_of_lt hvalid.online_lt) (averageFraction_snd_pos stats)

theorem Valid.uptimeDenum_le {stats : BlockChunkValidatorStats}
    (hmax : self.onlineMaxThreshold.toRat ≤ uptime stats) :
    self.uptimeDenum (averageFraction stats) ≤ self.uptimeNumer (averageFraction stats) := by
  have hmax' := (Rational32.toRat_le_div_iff hvalid.onlineMaxThreshold_denom_pos
    hvalid.onlineMaxThreshold_numer_nonneg (averageFraction_snd_pos stats)).mp hmax
  have hscaled : self.onlineMaxThreshold.numerAsU64 * self.onlineMinThreshold.denomAsU64 *
      (averageFraction stats).2 ≤ (averageFraction stats).1 * self.onlineMinThreshold.denomAsU64 *
        self.onlineMaxThreshold.denomAsU64 := by
    nlinarith [Nat.mul_le_mul_left self.onlineMinThreshold.denomAsU64 hmax']
  have hswap : self.onlineMinThreshold.numerAsU64 * self.onlineMaxThreshold.denomAsU64 *
      (averageFraction stats).2 = self.onlineMinThreshold.numerAsU64 *
        (averageFraction stats).2 * self.onlineMaxThreshold.denomAsU64 := by
    ring
  rw [uptimeDenum, uptimeNumer, Nat.sub_mul, Nat.sub_mul, hswap]
  omega

variable {validatorStake : BTreeMap AccountId ℕ} {protocolVersion epochValidatorReward totalStake : ℕ}
  {accountId : AccountId} {stake : ℕ} {stats : BlockChunkValidatorStats}

/-- The reward of a validator with a stake and counts that fit, out of a positive total
stake: nothing, or its share scaled by the multiplier capped at one. -/
theorem validatorReward_eq (htotal : 0 < totalStake)
    (hstake : validatorStake.get? accountId = some stake)
    (haverage : averageProduced stats = some (averageFraction stats)) :
    self.validatorReward validatorStake protocolVersion epochValidatorReward totalStake accountId
        stats =
      some (if self.noReward protocolVersion stats (averageFraction stats) then 0
        else epochValidatorReward * min (self.uptimeNumer (averageFraction stats))
            (self.uptimeDenum (averageFraction stats)) * stake /
          self.uptimeDenum (averageFraction stats) / totalStake) := by
  unfold validatorReward
  simp only [haverage, Option.bind_eq_bind, Option.bind_some]
  split_ifs with hno
  · rfl
  · -- not below the lower threshold, so neither subtraction falls below zero
    have hup : self.onlineMinThreshold.numerAsU64 * (averageFraction stats).2 ≤
        (averageFraction stats).1 * self.onlineMinThreshold.denomAsU64 :=
      not_lt.mp fun hlt => hno (.inl hlt)
    have hmin : (if self.uptimeNumer (averageFraction stats) > self.uptimeDenum (averageFraction stats)
        then self.uptimeDenum (averageFraction stats) else self.uptimeNumer (averageFraction stats)) =
          min (self.uptimeNumer (averageFraction stats)) (self.uptimeDenum (averageFraction stats)) := by
      split_ifs <;> omega
    have hdenum := (hvalid.uptimeDenum_pos stats).ne'
    rw [← hmin]
    unfold uptimeDenum uptimeNumer at *
    simp only [hstake, U256.checkedSub, if_pos hvalid.online_lt.le, if_pos hup, Option.bind_some,
      U256.checkedDiv, if_neg hdenum, if_neg htotal.ne']

theorem validatorReward_le (htotal : 0 < totalStake)
    (hstake : validatorStake.get? accountId = some stake)
    (haverage : averageProduced stats = some (averageFraction stats)) :
    ((self.validatorReward validatorStake protocolVersion epochValidatorReward totalStake accountId
        stats).getD 0) ≤ epochValidatorReward * stake / totalStake := by
  rw [validatorReward_eq hvalid htotal hstake haverage]
  split_ifs
  · exact Nat.zero_le _
  · -- the capped multiplier is at most one
    have hcap : epochValidatorReward * min (self.uptimeNumer (averageFraction stats))
        (self.uptimeDenum (averageFraction stats)) * stake ≤
          self.uptimeDenum (averageFraction stats) * (epochValidatorReward * stake) := by
      calc epochValidatorReward * min (self.uptimeNumer (averageFraction stats))
            (self.uptimeDenum (averageFraction stats)) * stake
          ≤ epochValidatorReward * self.uptimeDenum (averageFraction stats) * stake :=
            Nat.mul_le_mul_right _ (Nat.mul_le_mul_left _ (min_le_right _ _))
        _ = self.uptimeDenum (averageFraction stats) * (epochValidatorReward * stake) := by ring
    exact Nat.div_le_div_right (Nat.div_le_of_le_mul hcap)

theorem validatorReward_of_lt_onlineMin (htotal : 0 < totalStake)
    (hstake : validatorStake.get? accountId = some stake)
    (haverage : averageProduced stats = some (averageFraction stats))
    (hlow : uptime stats < self.onlineMinThreshold.toRat) :
    self.validatorReward validatorStake protocolVersion epochValidatorReward totalStake accountId
      stats = some 0 := by
  rw [validatorReward_eq hvalid htotal hstake haverage,
    if_pos (.inl ((hvalid.below_iff stats).mpr hlow))]

/-- From the upper threshold on, a validator of whom blocks and chunks were expected (or
any, with `ChunkOnlyProducers`) gets its whole share. -/
theorem validatorReward_of_onlineMax_le (htotal : 0 < totalStake)
    (hstake : validatorStake.get? accountId = some stake)
    (haverage : averageProduced stats = some (averageFraction stats))
    (hhigh : self.onlineMaxThreshold.toRat ≤ uptime stats)
    (hexpected : chunkOnlyProducers protocolVersion = true ∨
      0 < stats.blockStats.expected ∧ 0 < stats.chunkStats.expected) :
    self.validatorReward validatorStake protocolVersion epochValidatorReward totalStake accountId
      stats = some (epochValidatorReward * stake / totalStake) := by
  have hno : ¬ self.noReward protocolVersion stats (averageFraction stats) := by
    rintro (hlow | ⟨-, hchunk, hblock⟩ | ⟨hfeature, hzero⟩)
    · -- the uptime is above the upper threshold, itself above the lower one
      have := (hvalid.below_iff stats).mp hlow
      linarith [hvalid.onlineMinThreshold_lt]
    · -- nothing expected is an uptime of zero, below the upper threshold
      rw [uptime_of_expected_eq_zero hblock hchunk] at hhigh
      linarith [hvalid.onlineMinThreshold_nonneg, hvalid.onlineMinThreshold_lt]
    · rcases hexpected with htrue | ⟨hblock, hchunk⟩
      · rw [hfeature] at htrue
        cases htrue
      · omega
  rw [validatorReward_eq hvalid htotal hstake haverage, if_neg hno,
    min_eq_right (hvalid.uptimeDenum_le hhigh), Nat.mul_right_comm,
    Nat.mul_div_cancel _ (hvalid.uptimeDenum_pos stats)]

end Validator

/-! ## The loop over the validators -/

section Loop

variable {self : RewardCalculator} {validatorStake : BTreeMap AccountId ℕ}
  {protocolVersion epochValidatorReward totalStake : ℕ}

/-- Recording rewards and adding them up, one entry at a time, is recording each and
adding all. -/
theorem foldl_insert_add (reward : AccountId × BlockChunkValidatorStats → ℕ)
    (entries : List (AccountId × BlockChunkValidatorStats)) (acc : BTreeMap AccountId ℕ × ℕ) :
    entries.foldl (fun acc e => (acc.1.insert e.1 (reward e), acc.2 + reward e)) acc =
      (entries.foldl (fun m e => m.insert e.1 (reward e)) acc.1, acc.2 + (entries.map reward).sum) := by
  induction entries generalizing acc with
  | nil => simp
  | cons e entries ih =>
      rw [List.foldl_cons, ih]
      simp only [List.foldl_cons, List.map_cons, List.sum_cons, Nat.add_assoc]

/-- When every validator's reward is computed, the loop records each under its account
and adds them all to the amount minted. -/
theorem foldlM_rewardStep (reward : AccountId × BlockChunkValidatorStats → ℕ)
    (entries : List (AccountId × BlockChunkValidatorStats))
    (hreward : ∀ e ∈ entries, self.validatorReward validatorStake protocolVersion
      epochValidatorReward totalStake e.1 e.2 = some (reward e))
    (acc : BTreeMap AccountId ℕ × ℕ) :
    entries.foldlM (self.rewardStep validatorStake protocolVersion epochValidatorReward totalStake)
        acc =
      some (entries.foldl (fun m e => m.insert e.1 (reward e)) acc.1,
        acc.2 + (entries.map reward).sum) := by
  have hstep : ∀ (acc : BTreeMap AccountId ℕ × ℕ), ∀ e ∈ entries,
      self.rewardStep validatorStake protocolVersion epochValidatorReward totalStake acc e =
        some (acc.1.insert e.1 (reward e), acc.2 + reward e) := by
    intro acc e he
    simp only [rewardStep, hreward e he, Option.bind_eq_bind, Option.bind_some]
    rfl
  rw [List.foldlM_option_eq_some_foldl entries hstep, foldl_insert_add]

/-- Rewards each at most a share `V * stake / T` of stakes adding up to at most `T` add up
to at most `V`: flooring each share loses at least what flooring their sum does. -/
theorem sum_le_of_le_share {S : Type} {entries : List (AccountId × S)} (reward : AccountId × S → ℕ)
    (stakeOf : AccountId → ℕ) (V T : ℕ) (hreward : ∀ e ∈ entries, reward e ≤ V * stakeOf e.1 / T)
    (hstakes : (entries.map fun e => stakeOf e.1).sum ≤ T) : (entries.map reward).sum ≤ V := by
  calc (entries.map reward).sum ≤ (entries.map fun e => V * stakeOf e.1 / T).sum :=
        List.sum_le_sum hreward
    _ ≤ (entries.map fun e => V * stakeOf e.1).sum / T := List.sum_map_div_le _ _ _
    _ = V * (entries.map fun e => stakeOf e.1).sum / T := by rw [List.sum_map_mul_left]
    _ ≤ V * T / T := Nat.div_le_div_right (Nat.mul_le_mul_left V hstakes)
    _ ≤ V := Nat.div_le_of_le_mul (Nat.le_of_eq (Nat.mul_comm V T))

end Loop

/-! ## The epoch's budget -/

theorem mul_rate_div_le {rate : Rational32} (hrate : rate.numerAsU64 ≤ rate.denomAsU64)
    (total : ℕ) : total * rate.numerAsU64 / rate.denomAsU64 ≤ total :=
  Nat.div_le_of_le_mul (by rw [Nat.mul_comm rate.denomAsU64]; exact Nat.mul_le_mul_left total hrate)

section Budget

variable {self : RewardCalculator} (hvalid : self.Valid)
include hvalid

theorem Valid.epochTotalReward_isSome {maxInflationRate : Rational32}
    (hrate : 0 < maxInflationRate.denom.toInt) (totalSupply protocolVersion epochDuration : ℕ) :
    ∃ total, self.epochTotalReward maxInflationRate totalSupply protocolVersion epochDuration =
      some total := by
  have hdenom := Rational32.denomAsU64_pos hrate
  unfold epochTotalReward
  split_ifs
  · have hdiv : self.numSecondsPerYear * maxInflationRate.denomAsU64 * numNsInSecond ≠ 0 :=
      Nat.ne_of_gt (Nat.mul_pos (Nat.mul_pos hvalid.numSecondsPerYear_pos hdenom) (by decide))
    exact ⟨_, if_neg hdiv⟩
  · have hdiv : self.numBlocksPerYear * maxInflationRate.denomAsU64 ≠ 0 :=
      Nat.ne_of_gt (Nat.mul_pos hvalid.numBlocksPerYear_pos hdenom)
    exact ⟨_, if_neg hdiv⟩

/-- The maximal inflation rate of the epoch has a positive denominator, the hardcoded one
as the calculator's. -/
theorem Valid.epochMaxInflationRate_denom_pos (protocolVersion genesisProtocolVersion : ℕ) :
    0 < (self.epochMaxInflationRate protocolVersion genesisProtocolVersion).denom.toInt := by
  unfold epochMaxInflationRate
  split_ifs
  · decide
  · exact hvalid.maxInflationRate_denom_pos

/-- The protocol reward rate of the epoch, hardcoded or the calculator's, is a fraction of at
most one with a positive denominator. -/
theorem Valid.epochProtocolRewardRate_le (protocolVersion genesisProtocolVersion : ℕ) :
    0 < (self.epochProtocolRewardRate protocolVersion genesisProtocolVersion).denomAsU64 ∧
      (self.epochProtocolRewardRate protocolVersion genesisProtocolVersion).numerAsU64 ≤
        (self.epochProtocolRewardRate protocolVersion genesisProtocolVersion).denomAsU64 := by
  unfold epochProtocolRewardRate
  split_ifs
  · decide
  · have hn := Rational32.numer_nonneg hvalid.protocolRewardRate_denom_pos
      hvalid.protocolRewardRate_nonneg
    exact ⟨Rational32.denomAsU64_pos hvalid.protocolRewardRate_denom_pos,
      (Rational32.toRat_le_one_iff hvalid.protocolRewardRate_denom_pos hn).mp
        hvalid.protocolRewardRate_le_one⟩

end Budget

/-- `calculate_reward` on a valid calculator, with at least one validator in the stats, all
of them with a stake and with at most `2 ^ 31` blocks and chunks expected and no more
produced, and a positive total stake: it returns; every validator's reward is
at most its share of the validators' part, nothing below the lower online threshold, and
its whole share from the upper one on when blocks and chunks were expected of it (or with
`ChunkOnlyProducers`); and the amount minted is the treasury's part and the validators'
rewards, within the epoch's reward. -/
theorem calculateReward_within_budget (self : RewardCalculator) (hvalid : self.Valid)
    (validatorBlockChunkStats : BTreeMap AccountId BlockChunkValidatorStats)
    (validatorStake : BTreeMap AccountId ℕ)
    (totalSupply protocolVersion genesisProtocolVersion epochDuration : ℕ)
    (hvalidators : ∀ a ∈ validatorBlockChunkStats.keys, a ∈ validatorStake.keys)
    (hcounts : ∀ a stats, validatorBlockChunkStats.get? a = some stats →
      (stats.blockStats.produced ≤ stats.blockStats.expected ∧ stats.blockStats.expected ≤ 2 ^ 31) ∧
        (stats.chunkStats.produced ≤ stats.chunkStats.expected ∧ stats.chunkStats.expected ≤ 2 ^ 31))
    (hnonempty : 0 < validatorBlockChunkStats.size) (htotalStake : 0 < validatorStake.values.sum) :
    ∃ totalReward rewards minted,
      self.epochTotalReward (self.epochMaxInflationRate protocolVersion genesisProtocolVersion)
        totalSupply protocolVersion epochDuration = some totalReward ∧
      self.calculateReward validatorBlockChunkStats validatorStake totalSupply protocolVersion
        genesisProtocolVersion epochDuration = some (rewards, minted) ∧
      let treasury :=
        totalReward * (self.epochProtocolRewardRate protocolVersion genesisProtocolVersion).numerAsU64 /
          (self.epochProtocolRewardRate protocolVersion genesisProtocolVersion).denomAsU64
      minted = treasury + (validatorBlockChunkStats.keys.map fun a => (rewards.get? a).getD 0).sum ∧
      minted ≤ totalReward ∧
      ∀ a stats, validatorBlockChunkStats.get? a = some stats →
        ∃ reward stake, rewards.get? a = some reward ∧ validatorStake.get? a = some stake ∧
          reward ≤ (totalReward - treasury) * stake / validatorStake.values.sum ∧
          (uptime stats < self.onlineMinThreshold.toRat → reward = 0) ∧
          (self.onlineMaxThreshold.toRat ≤ uptime stats →
            (chunkOnlyProducers protocolVersion = true ∨
              0 < stats.blockStats.expected ∧ 0 < stats.chunkStats.expected) →
            reward = (totalReward - treasury) * stake / validatorStake.values.sum) := by
  obtain ⟨totalReward, htotalReward⟩ := hvalid.epochTotalReward_isSome
    (hvalid.epochMaxInflationRate_denom_pos protocolVersion genesisProtocolVersion)
    totalSupply protocolVersion epochDuration
  obtain ⟨hdenom, hrate⟩ := hvalid.epochProtocolRewardRate_le protocolVersion genesisProtocolVersion
  set treasury :=
    totalReward * (self.epochProtocolRewardRate protocolVersion genesisProtocolVersion).numerAsU64 /
      (self.epochProtocolRewardRate protocolVersion genesisProtocolVersion).denomAsU64
  have htreasury_le : treasury ≤ totalReward := mul_rate_div_le hrate totalReward
  -- every validator has a stake, so the loop computes every reward
  have hstakeOf : ∀ a ∈ validatorBlockChunkStats.keys,
      validatorStake.get? a = some ((validatorStake.get? a).getD 0) := by
    intro a ha
    obtain ⟨stake, hstake⟩ := (BTreeMap.mem_keys_iff _ a).mp (hvalidators a ha)
    rw [hstake, Option.getD_some]
  let reward : AccountId × BlockChunkValidatorStats → ℕ := fun e =>
    (self.validatorReward validatorStake protocolVersion (totalReward - treasury)
      validatorStake.values.sum e.1 e.2).getD 0
  have hkey : ∀ e ∈ validatorBlockChunkStats.entries, e.1 ∈ validatorBlockChunkStats.keys :=
    fun e he => List.mem_map_of_mem he
  have haverageOf : ∀ e ∈ validatorBlockChunkStats.entries,
      averageProduced e.2 = some (averageFraction e.2) := by
    intro e he
    obtain ⟨hblock, hchunk⟩ := hcounts e.1 e.2 ((BTreeMap.get?_eq_some_iff _ _ _).mpr he)
    exact averageProduced_eq_some hblock hchunk
  have hreward : ∀ e ∈ validatorBlockChunkStats.entries,
      self.validatorReward validatorStake protocolVersion (totalReward - treasury)
        validatorStake.values.sum e.1 e.2 = some (reward e) := by
    intro e he
    simp only [reward, validatorReward_eq hvalid htotalStake (hstakeOf e.1 (hkey e he))
      (haverageOf e he), Option.getD_some]
  let rewards := validatorBlockChunkStats.entries.foldl (fun m e => m.insert e.1 (reward e))
    (BTreeMap.empty.insert self.protocolTreasuryAccount treasury)
  have hrun : self.calculateReward validatorBlockChunkStats validatorStake totalSupply
      protocolVersion genesisProtocolVersion epochDuration =
        some (rewards, treasury + (validatorBlockChunkStats.entries.map reward).sum) := by
    have hdiv : U256.checkedDiv
        (totalReward * (self.epochProtocolRewardRate protocolVersion genesisProtocolVersion).numerAsU64)
        (self.epochProtocolRewardRate protocolVersion genesisProtocolVersion).denomAsU64 =
          some treasury := if_neg hdenom.ne'
    have hsub : U128.checkedSub totalReward treasury = some (totalReward - treasury) :=
      U128.checkedSub_of_le htreasury_le
    unfold calculateReward
    simp only [htotalReward, hdiv, Option.bind_eq_bind, Option.bind_some, if_neg hnonempty.ne',
      hsub, foldlM_rewardStep reward _ hreward]
    rfl
  have hrewards : ∀ e ∈ validatorBlockChunkStats.entries, rewards.get? e.1 = some (reward e) :=
    fun e he => BTreeMap.get?_foldl_insert_of_mem _ validatorBlockChunkStats.keys_nodup _ he
  have hsum : validatorBlockChunkStats.keys.map (fun a => (rewards.get? a).getD 0) =
      validatorBlockChunkStats.entries.map reward := by
    rw [BTreeMap.keys, List.map_map]
    exact List.map_congr_left fun e he => by simp [hrewards e he]
  have hshares : (validatorBlockChunkStats.entries.map reward).sum ≤ totalReward - treasury := by
    refine sum_le_of_le_share reward (fun a => (validatorStake.get? a).getD 0) _
      validatorStake.values.sum (fun e he => ?_) ?_
    · exact validatorReward_le hvalid htotalStake (hstakeOf e.1 (hkey e he)) (haverageOf e he)
    · have hle := validatorStake.sum_get?_le_sum_values validatorBlockChunkStats.keys_nodup
        hvalidators
      rwa [BTreeMap.keys, List.map_map] at hle
  refine ⟨totalReward, rewards, _, htotalReward, hrun, by rw [hsum], by omega, ?_⟩
  intro a stats hget
  have he : (a, stats) ∈ validatorBlockChunkStats.entries :=
    (BTreeMap.get?_eq_some_iff _ a stats).mp hget
  have hstake := hstakeOf a (hkey _ he)
  refine ⟨reward (a, stats), _, hrewards _ he, hstake,
    validatorReward_le hvalid htotalStake hstake (haverageOf _ he), fun hlow => ?_,
    fun hhigh hexpected => ?_⟩
  · simp only [reward, validatorReward_of_lt_onlineMin hvalid htotalStake hstake (haverageOf _ he) hlow,
      Option.getD_some]
  · simp only [reward, validatorReward_of_onlineMax_le hvalid htotalStake hstake (haverageOf _ he)
      hhigh hexpected, Option.getD_some]
    rfl

/-- Mainnet's rates: an inflation of `1 / 20`, a treasury's `1 / 10` and online thresholds
of `9 / 10` and `99 / 100`. -/
def mainnetRewardCalculator : RewardCalculator :=
  ⟨⟨1, 20⟩, 31536000, 43200, ⟨1, 10⟩, "treasury.near", ⟨9, 10⟩, ⟨99, 100⟩, 31536000⟩

theorem mainnetRewardCalculator_valid : mainnetRewardCalculator.Valid where
  maxInflationRate_denom_pos := by decide
  protocolRewardRate_denom_pos := by decide
  onlineMinThreshold_denom_pos := by decide
  onlineMaxThreshold_denom_pos := by decide
  protocolRewardRate_nonneg := by
    norm_num [mainnetRewardCalculator, Rational32.toRat, Int32.toInt_ofNat, Int32.size, Int.bmod]
  protocolRewardRate_le_one := by
    norm_num [mainnetRewardCalculator, Rational32.toRat, Int32.toInt_ofNat, Int32.size, Int.bmod]
  onlineMinThreshold_nonneg := by
    norm_num [mainnetRewardCalculator, Rational32.toRat, Int32.toInt_ofNat, Int32.size, Int.bmod]
  onlineMinThreshold_lt := by
    norm_num [mainnetRewardCalculator, Rational32.toRat, Int32.toInt_ofNat, Int32.size, Int.bmod]
  numBlocksPerYear_pos := by decide
  numSecondsPerYear_pos := by decide

/-- Three validators of mainnet, with uptimes of `19 / 20`, between the thresholds, `2 / 5`,
below the lower one, and `1`. -/
def threeValidatorStats : BTreeMap AccountId BlockChunkValidatorStats :=
  ((BTreeMap.empty.insert "alice" ⟨⟨9, 10⟩, ⟨10, 10⟩⟩).insert "bob" ⟨⟨3, 10⟩, ⟨5, 10⟩⟩).insert "carol"
    ⟨⟨10, 10⟩, ⟨10, 10⟩⟩

def threeValidatorStakes : BTreeMap AccountId ℕ :=
  ((BTreeMap.empty.insert "alice" 100).insert "bob" 50).insert "carol" 50

theorem calculateReward_within_budget_three :
    mainnetRewardCalculator.Valid ∧
    (∀ a ∈ threeValidatorStats.keys, a ∈ threeValidatorStakes.keys) ∧
    (∀ a stats, threeValidatorStats.get? a = some stats →
      (stats.blockStats.produced ≤ stats.blockStats.expected ∧ stats.blockStats.expected ≤ 2 ^ 31) ∧
        (stats.chunkStats.produced ≤ stats.chunkStats.expected ∧ stats.chunkStats.expected ≤ 2 ^ 31)) ∧
    0 < threeValidatorStats.size ∧ 0 < threeValidatorStakes.values.sum ∧
    ∃ totalReward rewards minted,
      mainnetRewardCalculator.epochTotalReward (mainnetRewardCalculator.epochMaxInflationRate 56 56)
        1000000 56 43200000000000 = some totalReward ∧
      mainnetRewardCalculator.calculateReward threeValidatorStats threeValidatorStakes 1000000 56 56
        43200000000000 = some (rewards, minted) ∧
      let treasury :=
        totalReward * (mainnetRewardCalculator.epochProtocolRewardRate 56 56).numerAsU64 /
          (mainnetRewardCalculator.epochProtocolRewardRate 56 56).denomAsU64
      minted = treasury + (threeValidatorStats.keys.map fun a => (rewards.get? a).getD 0).sum ∧
      minted ≤ totalReward ∧
      ∀ a stats, threeValidatorStats.get? a = some stats →
        ∃ reward stake, rewards.get? a = some reward ∧ threeValidatorStakes.get? a = some stake ∧
          reward ≤ (totalReward - treasury) * stake / threeValidatorStakes.values.sum ∧
          (uptime stats < mainnetRewardCalculator.onlineMinThreshold.toRat → reward = 0) ∧
          (mainnetRewardCalculator.onlineMaxThreshold.toRat ≤ uptime stats →
            (chunkOnlyProducers 56 = true ∨
              0 < stats.blockStats.expected ∧ 0 < stats.chunkStats.expected) →
            reward = (totalReward - treasury) * stake / threeValidatorStakes.values.sum) := by
  have hvalidators : ∀ a ∈ threeValidatorStats.keys, a ∈ threeValidatorStakes.keys := by
    decide +kernel
  have hcounts : ∀ a stats, threeValidatorStats.get? a = some stats →
      (stats.blockStats.produced ≤ stats.blockStats.expected ∧ stats.blockStats.expected ≤ 2 ^ 31) ∧
        (stats.chunkStats.produced ≤ stats.chunkStats.expected ∧
          stats.chunkStats.expected ≤ 2 ^ 31) := by
    intro a stats hget
    have hentries : threeValidatorStats.entries = [("alice", ⟨⟨9, 10⟩, ⟨10, 10⟩⟩),
        ("bob", ⟨⟨3, 10⟩, ⟨5, 10⟩⟩), ("carol", ⟨⟨10, 10⟩, ⟨10, 10⟩⟩)] := by
      decide +kernel
    rw [BTreeMap.get?_eq_some_iff, hentries] at hget
    simp only [List.mem_cons, Prod.mk.injEq, List.not_mem_nil, or_false] at hget
    rcases hget with ⟨-, rfl⟩ | ⟨-, rfl⟩ | ⟨-, rfl⟩ <;> decide
  have hsize : 0 < threeValidatorStats.size := by decide +kernel
  have hstakes : 0 < threeValidatorStakes.values.sum := by decide +kernel
  exact ⟨mainnetRewardCalculator_valid, hvalidators, hcounts, hsize, hstakes,
    calculateReward_within_budget mainnetRewardCalculator mainnetRewardCalculator_valid _ _ 1000000 56
      56 43200000000000 hvalidators hcounts hsize hstakes⟩

/-- Before `RectifyInflation`, an epoch of ten of the ten blocks a year mints a twentieth of
the supply of 2000, which is 100, of which the treasury takes 10. -/
def legacyRewardCalculator : RewardCalculator :=
  ⟨⟨1, 20⟩, 10, 10, ⟨1, 10⟩, "near", ⟨9, 10⟩, ⟨99, 100⟩, 31536000⟩

/-- Two runs outside the budget's statement, on a valid calculator.  With no validator the
treasury is still handed its 10 while the amount minted is zero.  Before
`ChunkOnlyProducers`, `alice`, who produced all the blocks she was to produce and of whom no
chunk was expected, has an uptime of one, above the upper threshold, and gets nothing where
her share of the validators' 90 is all of it. -/
theorem calculateReward_empty_or_legacy :
    legacyRewardCalculator.Valid ∧
    legacyRewardCalculator.epochTotalReward (legacyRewardCalculator.epochMaxInflationRate 44 44)
      2000 44 0 = some 100 ∧
    (legacyRewardCalculator.calculateReward .empty (BTreeMap.empty.insert "alice" 100) 2000 44 44
      0).map (fun result => (result.1.entries, result.2)) = some ([("near", 10)], 0) ∧
    (legacyRewardCalculator.calculateReward (BTreeMap.empty.insert "alice" ⟨⟨5, 5⟩, ⟨0, 0⟩⟩)
      (BTreeMap.empty.insert "alice" 100) 2000 44 44 0).map (fun result => (result.1.entries, result.2)) =
        some ([("alice", 0), ("near", 10)], 10) ∧
    legacyRewardCalculator.onlineMaxThreshold.toRat ≤ uptime ⟨⟨5, 5⟩, ⟨0, 0⟩⟩ := by
  refine ⟨⟨by decide, by decide, by decide, by decide, ?_, ?_, ?_, ?_, by decide, by decide⟩,
    by decide, by decide, by decide, ?_⟩ <;>
    norm_num [legacyRewardCalculator, Rational32.toRat, Int32.toInt_ofNat, Int32.size, Int.bmod,
      uptime, averageFraction]

end RewardCalculator

end Nearcore.EpochManager
