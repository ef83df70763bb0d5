import Nearcore.RustArith
import Nearcore.Primitives

/-!
# Refunds and burnt tokens of an action receipt

`Runtime::generate_refund_receipts` (`runtime/src/lib.rs`) returns to the
signer the gas that an action receipt bought and did not use, at the price it
was bought for, and to the predecessor the deposit of a failed receipt.  When
the gas price has gone up since, the difference is taken from the gas refund,
and what the refund cannot cover is the gas deficit.  `apply_action_receipt`
then burns the gas burnt at the current price, less the deficit, and gives the
receiver its share of the gas burnt by function calls.

A `Balance`, Rust's `u128`, is kept as a natural number: the `safe_*` helpers
fail with `IntegerOverflowError` at `2 ^ 128`.  A plain `-`, `*` or `/` panics where
it overflows or divides by zero, since the release profile is built with
`overflow-checks`.  The totals over the actions (`total_deposit`,
`total_prepaid_gas` and the fees) are taken as computed.

Every token the receipt paid for is refunded, burnt or given to the receiver,
and no subtraction underflows, when `burnt_gas_reward` lies in `[0, 1]`
(`refundsAndBurn_balance`).  Where the receiver account no longer exists, the
reward is computed but not given, and stays burnt; a negative
`burnt_gas_reward` makes the reward exceed the burnt amount
(`refundsAndBurn_reward_not_given_or_negative`).
-/

namespace Nearcore.Runtime

/-- The arithmetic panics of a build with overflow checks that the model can
reach, by their message. -/
inductive ArithmeticPanic where
  | subtractWithOverflow
  | multiplyWithOverflow
  | divideByZero
  deriving DecidableEq, Repr

/-- How the computation ends without a result: an `IntegerOverflowError`
returned through `?`, or a panic. -/
inductive Failure where
  | integerOverflow
  | panic (reason : ArithmeticPanic)
  deriving DecidableEq, Repr

/-! ## Arithmetic -/

/-- `safe_add_gas`. -/
def safeAddGas (a b : Gas) : Except Failure Gas :=
  match a.checkedAdd b with
  | some c => .ok c
  | none => .error .integerOverflow

/-- `safe_add_balance`. -/
def safeAddBalance (a b : ℕ) : Except Failure ℕ :=
  if a + b < 2 ^ 128 then .ok (a + b) else .error .integerOverflow

/-- `safe_gas_to_balance`: `gas_price.checked_mul(Balance::from(gas))`. -/
def safeGasToBalance (gasPrice : ℕ) (gas : Gas) : Except Failure ℕ :=
  if gasPrice * gas.toNat < 2 ^ 128 then .ok (gasPrice * gas.toNat) else .error .integerOverflow

/-- `a - b` on `u64`. -/
def subGas (a b : Gas) : Except Failure Gas :=
  if b ≤ a then .ok (a - b) else .error (.panic .subtractWithOverflow)

/-- `a - b` on `u128`. -/
def subBalance (a b : ℕ) : Except Failure ℕ :=
  if b ≤ a then .ok (a - b) else .error (.panic .subtractWithOverflow)

/-- `a * b` on `u64`. -/
def mulGas (a b : Gas) : Except Failure Gas :=
  if a.toNat * b.toNat < 2 ^ 64 then .ok (a * b) else .error (.panic .multiplyWithOverflow)

/-- `a / b` on `u64`. -/
def divGas (a b : Gas) : Except Failure Gas :=
  if b = 0 then .error (.panic .divideByZero) else .ok (a / b)

/-- `x as u64` for an `i32`: sign extended, then read as unsigned. -/
def castI32ToU64 (x : Int32) : UInt64 := x.toInt64.toUInt64

section Arithmetic

variable {a b c : Gas} {x y z : ℕ}

theorem safeAddGas_eq_ok : safeAddGas a b = .ok c ↔ a.toNat + b.toNat < 2 ^ 64 ∧
    c.toNat = a.toNat + b.toNat := by
  rw [← UInt64.checkedAdd_eq_some_iff]
  unfold safeAddGas
  cases a.checkedAdd b <;> simp

theorem safeAddGas_ne_panic (reason : ArithmeticPanic) : safeAddGas a b ≠ .error (.panic reason) := by
  unfold safeAddGas
  cases a.checkedAdd b <;> simp

theorem safeAddBalance_eq_ok : safeAddBalance x y = .ok z ↔ x + y < 2 ^ 128 ∧ z = x + y := by
  unfold safeAddBalance
  split <;> simp_all [eq_comm]

theorem safeAddBalance_ne_panic (reason : ArithmeticPanic) :
    safeAddBalance x y ≠ .error (.panic reason) := by
  unfold safeAddBalance
  split <;> simp

theorem safeGasToBalance_eq_ok : safeGasToBalance x a = .ok z ↔ x * a.toNat < 2 ^ 128 ∧
    z = x * a.toNat := by
  unfold safeGasToBalance
  split <;> simp_all [eq_comm]

theorem safeGasToBalance_ne_panic (reason : ArithmeticPanic) :
    safeGasToBalance x a ≠ .error (.panic reason) := by
  unfold safeGasToBalance
  split <;> simp

theorem subGas_of_le (h : b.toNat ≤ a.toNat) : subGas a b = .ok (a - b) := by
  simp [subGas, UInt64.le_iff_toNat_le.mpr h]

theorem subGas_eq_ok : subGas a b = .ok c ↔ b.toNat ≤ a.toNat ∧ c.toNat = a.toNat - b.toNat := by
  unfold subGas
  split
  · next hle =>
      rw [← UInt64.toNat_sub_of_le a b hle, Except.ok.injEq, eq_comm, UInt64.toNat_inj]
      simp [UInt64.le_iff_toNat_le.mp hle]
  · next hle =>
      simp only [reduceCtorEq, false_iff, not_and]
      exact fun h => absurd (UInt64.le_iff_toNat_le.mpr h) hle

theorem subBalance_of_le (h : y ≤ x) : subBalance x y = .ok (x - y) := by
  simp [subBalance, h]

theorem subBalance_eq_ok : subBalance x y = .ok z ↔ y ≤ x ∧ z = x - y := by
  unfold subBalance
  split <;> simp [*, eq_comm]

theorem mulGas_eq_ok (h : mulGas a b = .ok c) : c.toNat = a.toNat * b.toNat := by
  unfold mulGas at h
  split at h
  · next hfit =>
      cases h
      rw [UInt64.toNat_mul, Nat.mod_eq_of_lt hfit]
  · cases h

theorem mulGas_ne_subtract : mulGas a b ≠ .error (.panic .subtractWithOverflow) := by
  unfold mulGas
  split <;> simp

theorem divGas_eq_ok (h : divGas a b = .ok c) : c.toNat = a.toNat / b.toNat := by
  unfold divGas at h
  split at h
  · cases h
  · cases h
    exact UInt64.toNat_div a b

theorem divGas_ne_subtract : divGas a b ≠ .error (.panic .subtractWithOverflow) := by
  unfold divGas
  split <;> simp

theorem toNat_castI32ToU64 {n : Int32} (h : 0 ≤ n) : (castI32ToU64 n).toNat = n.toNatClampNeg := by
  have h64 : 0 ≤ n.toInt64 := by
    rw [Int64.le_iff_toInt_le, Int32.toInt_toInt64]
    exact Int32.le_iff_toInt_le.mp h
  rw [castI32ToU64, Int64.toNat_toUInt64_of_le h64, Int32.toNatClampNeg_toInt64]

end Arithmetic

/-! ## The model -/

/-- `Rational32`, a ratio of `i32`s whose denominator `Ratio::new` keeps
positive. -/
structure Rational32 where
  numer : Int32
  denom : Int32
  denom_pos : 0 < denom

/-- What the refund reads of an `ActionReceipt`: the signer, the price its gas
was bought at, and the totals over its actions. -/
structure ActionReceipt where
  signerId : AccountId
  signerPublicKey : PublicKey
  gasPrice : ℕ
  totalDeposit : ℕ
  totalPrepaidGas : Gas
  totalPrepaidSendFees : Gas
  totalPrepaidExecFees : Gas

/-- What the refund and the burn read of an `ActionResult`. -/
structure ActionResult where
  gasBurnt : Gas
  gasBurntForFunctionCall : Gas
  gasUsed : Gas
  /-- `result.result.is_err()` -/
  isErr : Bool

/-- The receipts `generate_refund_receipts` pushes onto `result.new_receipts`. -/
inductive RefundReceipt where
  /-- `Receipt::new_balance_refund` -/
  | balanceRefund (receiverId : AccountId) (refund : ℕ)
  /-- `Receipt::new_gas_refund` -/
  | gasRefund (receiverId : AccountId) (refund : ℕ) (signerKey : PublicKey)

/-- The tokens a refund receipt carries. -/
def RefundReceipt.refund : RefundReceipt → ℕ
  | .balanceRefund _ refund => refund
  | .gasRefund _ refund _ => refund

/-- `Runtime::generate_refund_receipts`: the gas deficit, and the refund
receipts. -/
def generateRefundReceipts (currentGasPrice : ℕ) (predecessorId : AccountId)
    (actionReceipt : ActionReceipt) (result : ActionResult) (newActionReceiptExecFee : Gas) :
    Except Failure (ℕ × List RefundReceipt) := do
  let totalDeposit := actionReceipt.totalDeposit
  let prepaidGas ← safeAddGas actionReceipt.totalPrepaidGas actionReceipt.totalPrepaidSendFees
  let prepaidExecGas ← safeAddGas actionReceipt.totalPrepaidExecFees newActionReceiptExecFee
  let depositRefund := if result.isErr then totalDeposit else 0
  let gasRefund ← (if result.isErr then do
      let total ← safeAddGas prepaidGas prepaidExecGas
      subGas total result.gasBurnt
    else do
      let total ← safeAddGas prepaidGas prepaidExecGas
      subGas total result.gasUsed)
  let gasBalanceRefund ← safeGasToBalance actionReceipt.gasPrice gasRefund
  let (gasBalanceRefund, gasDeficitAmount) ← (if currentGasPrice > actionReceipt.gasPrice then do
      -- the price went up: the difference comes out of the refund, and what the
      -- refund cannot cover is the deficit
      let deficit ← safeGasToBalance (← subBalance currentGasPrice actionReceipt.gasPrice)
        result.gasBurnt
      if gasBalanceRefund ≥ deficit then do
        let refund ← subBalance gasBalanceRefund deficit
        pure (refund, 0)
      else do
        let deficit ← subBalance deficit gasBalanceRefund
        pure (0, deficit)
    else do
      let difference ← safeGasToBalance (← subBalance actionReceipt.gasPrice currentGasPrice)
        result.gasBurnt
      let refund ← safeAddBalance gasBalanceRefund difference
      pure (refund, 0))
  let depositReceipts :=
    if depositRefund > 0 then [RefundReceipt.balanceRefund predecessorId depositRefund] else []
  let gasReceipts := if gasBalanceRefund > 0 then
      [RefundReceipt.gasRefund actionReceipt.signerId gasBalanceRefund actionReceipt.signerPublicKey]
    else []
  return (gasDeficitAmount, depositReceipts ++ gasReceipts)

/-- What the burn leaves: the burnt amount, the `tokens_burnt` of the outcome,
the receiver's reward, and the receiver's balance after it (`none` where the
receiver has no account). -/
structure ReceiptBurn where
  txBurntAmount : ℕ
  tokensBurnt : ℕ
  receiverReward : ℕ
  receiverAmount : Option ℕ

/-- The burn and the reward of `apply_action_receipt`, for a receipt whose
predecessor is not the system account. -/
def burnGas (gasPrice : ℕ) (result : ActionResult) (gasDeficitAmount : ℕ)
    (burntGasReward : Rational32) (receiverAmount : Option ℕ) : Except Failure ReceiptBurn := do
  let txBurntAmount ← subBalance (← safeGasToBalance gasPrice result.gasBurnt) gasDeficitAmount
  let tokensBurnt := txBurntAmount
  let receiverGasReward ← divGas
    (← mulGas result.gasBurntForFunctionCall (castI32ToU64 burntGasReward.numer))
    (castI32ToU64 burntGasReward.denom)
  -- `saturating_sub`
  let receiverReward := (← safeGasToBalance gasPrice receiverGasReward) - gasDeficitAmount
  if receiverReward > 0 then
    match receiverAmount with
    | some amount =>
        -- the receiver's share leaves the burnt amount; without an account the
        -- validators keep it
        let txBurntAmount ← subBalance txBurntAmount receiverReward
        let amount ← safeAddBalance amount receiverReward
        pure ⟨txBurntAmount, tokensBurnt, receiverReward, some amount⟩
    | none => pure ⟨txBurntAmount, tokensBurnt, receiverReward, none⟩
  else pure ⟨txBurntAmount, tokensBurnt, receiverReward, receiverAmount⟩

/-- The fields of `ApplyStats` the receipt adds to. -/
structure ApplyStats where
  txBurntAmount : ℕ
  gasDeficitAmount : ℕ

/-- What the end of `apply_action_receipt` computes for one receipt. -/
structure ReceiptAccounting where
  gasDeficitAmount : ℕ
  refunds : List RefundReceipt
  burn : ReceiptBurn
  stats : ApplyStats

/-- The end of `apply_action_receipt` for a receipt whose predecessor is not the
system account: the refunds, the deficit added to the stats, then the burn and
the reward. -/
def refundsAndBurn (gasPrice : ℕ) (predecessorId : AccountId) (actionReceipt : ActionReceipt)
    (result : ActionResult) (newActionReceiptExecFee : Gas) (burntGasReward : Rational32)
    (receiverAmount : Option ℕ) (stats : ApplyStats) : Except Failure ReceiptAccounting := do
  let (gasDeficitAmount, refunds) ←
    generateRefundReceipts gasPrice predecessorId actionReceipt result newActionReceiptExecFee
  let statsDeficit ← safeAddBalance stats.gasDeficitAmount gasDeficitAmount
  let burn ← burnGas gasPrice result gasDeficitAmount burntGasReward receiverAmount
  let statsBurnt ← safeAddBalance stats.txBurntAmount burn.txBurntAmount
  return ⟨gasDeficitAmount, refunds, burn, ⟨statsBurnt, statsDeficit⟩⟩

/-! ## Every paid token is refunded, burnt or given -/

/-- The gas an action receipt paid for: its prepaid gas and send fees, its exec
fees, and the exec fee of the receipt itself. -/
def ActionReceipt.prepaid (actionReceipt : ActionReceipt) (newActionReceiptExecFee : Gas) : ℕ :=
  actionReceipt.totalPrepaidGas.toNat + actionReceipt.totalPrepaidSendFees.toNat +
    (actionReceipt.totalPrepaidExecFees.toNat + newActionReceiptExecFee.toNat)

/-- The gas the refund keeps: all the gas burnt by a failed receipt, the gas
used by one that succeeded. -/
def ActionResult.gasCharged (result : ActionResult) : ℕ :=
  if result.isErr then result.gasBurnt.toNat else result.gasUsed.toNat

/-- The deposit a failed receipt returns. -/
def depositRefund (actionReceipt : ActionReceipt) (result : ActionResult) : ℕ :=
  if result.isErr then actionReceipt.totalDeposit else 0

/-- The tokens a list of refund receipts carries. -/
def refundTotal (receipts : List RefundReceipt) : ℕ := (receipts.map RefundReceipt.refund).sum

/-- The reward the receiver is given: `receiver_reward` where it has an
account, nothing otherwise. -/
def ReceiptBurn.rewardGiven (burn : ReceiptBurn) : ℕ :=
  match burn.receiverAmount with
  | some _ => burn.receiverReward
  | none => 0

theorem refundTotal_receipts (predecessorId signerId : AccountId) (signerKey : PublicKey)
    (deposit refund : ℕ) :
    refundTotal ((if deposit > 0 then [RefundReceipt.balanceRefund predecessorId deposit] else []) ++
      (if refund > 0 then [RefundReceipt.gasRefund signerId refund signerKey] else [])) =
      deposit + refund := by
  unfold refundTotal
  split_ifs <;> simp [RefundReceipt.refund] <;> omega

section Refund

variable {currentGasPrice : ℕ} {predecessorId : AccountId} {actionReceipt : ActionReceipt}
  {result : ActionResult} {newActionReceiptExecFee : Gas}

/-- The gas left unused, `gas_refund`: what the receipt paid for less what it
is charged. -/
theorem gasRefund_eq_ok {gasRefund : Gas}
    (h : (if result.isErr then do
        let total ← safeAddGas prepaidGas prepaidExecGas
        subGas total result.gasBurnt
      else do
        let total ← safeAddGas prepaidGas prepaidExecGas
        subGas total result.gasUsed) = .ok gasRefund) :
    result.gasCharged ≤ prepaidGas.toNat + prepaidExecGas.toNat ∧
      gasRefund.toNat = prepaidGas.toNat + prepaidExecGas.toNat - result.gasCharged := by
  unfold ActionResult.gasCharged
  cases herr : result.isErr <;> simp only [herr, Bool.false_eq_true, if_true, if_false] at h ⊢ <;>
  · obtain ⟨total, htotal, hsub⟩ := Except.bind_eq_ok.mp h
    obtain ⟨-, htotal⟩ := safeAddGas_eq_ok.mp htotal
    obtain ⟨hle, hrefund⟩ := subGas_eq_ok.mp hsub
    omega

/-- The price change on the gas burnt is settled against the refund: what the
refund gains or loses, with the deficit, is the change. -/
theorem priceChange_eq_ok {gasBalanceRefund refund deficit : ℕ}
    (h : (if currentGasPrice > actionReceipt.gasPrice then do
        let deficit ← safeGasToBalance (← subBalance currentGasPrice actionReceipt.gasPrice)
          result.gasBurnt
        if gasBalanceRefund ≥ deficit then do
          let refund ← subBalance gasBalanceRefund deficit
          pure (refund, 0)
        else do
          let deficit ← subBalance deficit gasBalanceRefund
          pure (0, deficit)
      else do
        let difference ← safeGasToBalance (← subBalance actionReceipt.gasPrice currentGasPrice)
          result.gasBurnt
        let refund ← safeAddBalance gasBalanceRefund difference
        pure (refund, 0)) = .ok (refund, deficit)) :
    refund + currentGasPrice * result.gasBurnt.toNat =
        gasBalanceRefund + actionReceipt.gasPrice * result.gasBurnt.toNat + deficit ∧
      deficit ≤ currentGasPrice * result.gasBurnt.toNat := by
  split at h
  · next hup =>
      obtain ⟨difference, hdifference, h⟩ := Except.bind_eq_ok.mp h
      obtain ⟨deficit₀, hdeficit₀, h⟩ := Except.bind_eq_ok.mp h
      obtain ⟨-, rfl⟩ := subBalance_eq_ok.mp hdifference
      obtain ⟨-, rfl⟩ := safeGasToBalance_eq_ok.mp hdeficit₀
      have hsplit : (currentGasPrice - actionReceipt.gasPrice) * result.gasBurnt.toNat +
          actionReceipt.gasPrice * result.gasBurnt.toNat = currentGasPrice * result.gasBurnt.toNat := by
        rw [← Nat.add_mul, Nat.sub_add_cancel hup.le]
      split at h
      · obtain ⟨refund', hrefund', h⟩ := Except.bind_eq_ok.mp h
        obtain ⟨-, rfl⟩ := subBalance_eq_ok.mp hrefund'
        simp only [pure, Except.pure, Except.ok.injEq, Prod.mk.injEq] at h
        omega
      · obtain ⟨deficit', hdeficit', h⟩ := Except.bind_eq_ok.mp h
        obtain ⟨-, rfl⟩ := subBalance_eq_ok.mp hdeficit'
        simp only [pure, Except.pure, Except.ok.injEq, Prod.mk.injEq] at h
        omega
  · next hdown =>
      -- the price went down by `gasPrice - currentGasPrice`, which is refunded too
      obtain ⟨difference, hdifference, h⟩ := Except.bind_eq_ok.mp h
      obtain ⟨extra, hextra, h⟩ := Except.bind_eq_ok.mp h
      obtain ⟨refund', hrefund', h⟩ := Except.bind_eq_ok.mp h
      obtain ⟨-, rfl⟩ := subBalance_eq_ok.mp hdifference
      obtain ⟨-, rfl⟩ := safeGasToBalance_eq_ok.mp hextra
      obtain ⟨-, rfl⟩ := safeAddBalance_eq_ok.mp hrefund'
      simp only [pure, Except.pure, Except.ok.injEq, Prod.mk.injEq] at h
      have hsplit : (actionReceipt.gasPrice - currentGasPrice) * result.gasBurnt.toNat +
          currentGasPrice * result.gasBurnt.toNat = actionReceipt.gasPrice * result.gasBurnt.toNat := by
        rw [← Nat.add_mul, Nat.sub_add_cancel (not_lt.mp hdown)]
      omega

/-- A refund that succeeds returns what the receipt paid for and did not burn:
the deposit of a failed receipt and the unused gas at the price it was bought
for, with the price change on the gas burnt settled against it. -/
theorem generateRefundReceipts_eq_ok {gasDeficitAmount : ℕ} {receipts : List RefundReceipt}
    (h : generateRefundReceipts currentGasPrice predecessorId actionReceipt result
      newActionReceiptExecFee = .ok (gasDeficitAmount, receipts)) :
    result.gasCharged ≤ actionReceipt.prepaid newActionReceiptExecFee ∧
      refundTotal receipts + currentGasPrice * result.gasBurnt.toNat =
        depositRefund actionReceipt result + actionReceipt.gasPrice *
          (actionReceipt.prepaid newActionReceiptExecFee - result.gasCharged + result.gasBurnt.toNat) +
          gasDeficitAmount ∧
      gasDeficitAmount ≤ currentGasPrice * result.gasBurnt.toNat := by
  unfold generateRefundReceipts at h
  obtain ⟨prepaidGas, hprepaidGas, h⟩ := Except.bind_eq_ok.mp h
  obtain ⟨prepaidExecGas, hprepaidExecGas, h⟩ := Except.bind_eq_ok.mp h
  obtain ⟨gasRefund, hgasRefund, h⟩ := Except.bind_eq_ok.mp h
  obtain ⟨gasBalanceRefund, hgasBalanceRefund, h⟩ := Except.bind_eq_ok.mp h
  obtain ⟨⟨refund, deficit⟩, hchange, h⟩ := Except.bind_eq_ok.mp h
  simp only [pure, Except.pure, Except.ok.injEq, Prod.mk.injEq] at h
  obtain ⟨rfl, rfl⟩ := h
  have hprepaid : prepaidGas.toNat + prepaidExecGas.toNat =
      actionReceipt.prepaid newActionReceiptExecFee := by
    rw [(safeAddGas_eq_ok.mp hprepaidGas).2, (safeAddGas_eq_ok.mp hprepaidExecGas).2]
    rfl
  obtain ⟨hcharged, hunused⟩ := gasRefund_eq_ok hgasRefund
  obtain ⟨-, rfl⟩ := safeGasToBalance_eq_ok.mp hgasBalanceRefund
  obtain ⟨hsettled, hdeficit⟩ := priceChange_eq_ok hchange
  rw [hprepaid] at hcharged hunused
  rw [hunused] at hsettled
  refine ⟨hcharged, ?_, hdeficit⟩
  rw [refundTotal_receipts, Nat.mul_add]
  unfold depositRefund
  omega

/-- With the gas burnt at most the gas used, and that at most the gas paid for,
no subtraction of the refund underflows: each one is guarded by the
comparison before it. -/
theorem generateRefundReceipts_ne_underflow (hburnt : result.gasBurnt ≤ result.gasUsed)
    (hused : result.gasUsed.toNat ≤ actionReceipt.prepaid newActionReceiptExecFee) :
    generateRefundReceipts currentGasPrice predecessorId actionReceipt result newActionReceiptExecFee ≠
      .error (.panic .subtractWithOverflow) := by
  have hburnt' := UInt64.le_iff_toNat_le.mp hburnt
  unfold generateRefundReceipts
  refine Except.bind_ne_error (safeAddGas_ne_panic _) fun prepaidGas hprepaidGas => ?_
  refine Except.bind_ne_error (safeAddGas_ne_panic _) fun prepaidExecGas hprepaidExecGas => ?_
  have hprepaid : prepaidGas.toNat + prepaidExecGas.toNat =
      actionReceipt.prepaid newActionReceiptExecFee := by
    rw [(safeAddGas_eq_ok.mp hprepaidGas).2, (safeAddGas_eq_ok.mp hprepaidExecGas).2]
    rfl
  refine Except.bind_ne_error ?_ fun gasRefund _ => ?_
  · -- the gas charged, burnt or used, is at most the gas paid for
    split <;>
    · refine Except.bind_ne_error (safeAddGas_ne_panic _) fun total htotal => ?_
      have htotal' := (safeAddGas_eq_ok.mp htotal).2
      rw [subGas_of_le (by omega)]
      simp
  refine Except.bind_ne_error (safeGasToBalance_ne_panic _) fun gasBalanceRefund _ => ?_
  refine Except.bind_ne_error ?_ fun ⟨refund, deficit⟩ _ => by simp [pure, Except.pure]
  split
  · next hup =>
      rw [subBalance_of_le hup.le]
      refine Except.bind_ne_error (by simp) fun difference hdifference => ?_
      cases hdifference
      refine Except.bind_ne_error (safeGasToBalance_ne_panic _) fun deficit _ => ?_
      split
      · next henough =>
          rw [subBalance_of_le henough]
          simp [pure, Except.pure, bind, Except.bind]
      · next hshort =>
          rw [subBalance_of_le (by omega)]
          simp [pure, Except.pure, bind, Except.bind]
  · next hdown =>
      rw [subBalance_of_le (not_lt.mp hdown)]
      refine Except.bind_ne_error (by simp) fun difference hdifference => ?_
      cases hdifference
      refine Except.bind_ne_error (safeGasToBalance_ne_panic _) fun extra _ => ?_
      exact Except.bind_ne_error (safeAddBalance_ne_panic _) fun _ _ => by simp [pure, Except.pure]

end Refund

section Burn

variable {gasPrice gasDeficitAmount : ℕ} {result : ActionResult} {burntGasReward : Rational32}
  {receiverAmount : Option ℕ}

/-- With `burnt_gas_reward` in `[0, 1]`, the receiver's share of the gas burnt
by function calls is at most that gas. -/
theorem receiverGasReward_le {product receiverGasReward : Gas}
    (hnumer : 0 ≤ burntGasReward.numer) (hle : burntGasReward.numer ≤ burntGasReward.denom)
    (hmul : mulGas result.gasBurntForFunctionCall (castI32ToU64 burntGasReward.numer) = .ok product)
    (hdiv : divGas product (castI32ToU64 burntGasReward.denom) = .ok receiverGasReward) :
    receiverGasReward.toNat ≤ result.gasBurntForFunctionCall.toNat := by
  have hdenom : 0 ≤ burntGasReward.denom := Int32.le_of_lt burntGasReward.denom_pos
  have hratio : burntGasReward.numer.toNatClampNeg ≤ burntGasReward.denom.toNatClampNeg :=
    Int.toNat_le_toNat (Int32.le_iff_toInt_le.mp hle)
  have hpos : 0 < burntGasReward.denom.toNatClampNeg :=
    (Int32.toNatClampNeg_pos_iff _).mpr burntGasReward.denom_pos
  rw [divGas_eq_ok hdiv, mulGas_eq_ok hmul, toNat_castI32ToU64 hnumer, toNat_castI32ToU64 hdenom]
  apply Nat.div_le_of_le_mul
  calc result.gasBurntForFunctionCall.toNat * burntGasReward.numer.toNatClampNeg
      ≤ result.gasBurntForFunctionCall.toNat * burntGasReward.denom.toNatClampNeg :=
        Nat.mul_le_mul_left _ hratio
    _ = burntGasReward.denom.toNatClampNeg * result.gasBurntForFunctionCall.toNat := Nat.mul_comm _ _

/-- A burn that succeeds burns the gas burnt at the current price less the
deficit, out of which the receiver, where it has an account, is given its
reward. -/
theorem burnGas_eq_ok {burn : ReceiptBurn}
    (h : burnGas gasPrice result gasDeficitAmount burntGasReward receiverAmount = .ok burn) :
    burn.txBurntAmount + burn.rewardGiven = gasPrice * result.gasBurnt.toNat - gasDeficitAmount ∧
      burn.receiverAmount = receiverAmount.map (· + burn.rewardGiven) := by
  unfold burnGas at h
  obtain ⟨burnt, hburnt, h⟩ := Except.bind_eq_ok.mp h
  obtain ⟨txBurntAmount, htx, h⟩ := Except.bind_eq_ok.mp h
  obtain ⟨product, -, h⟩ := Except.bind_eq_ok.mp h
  obtain ⟨receiverGasReward, -, h⟩ := Except.bind_eq_ok.mp h
  obtain ⟨rewardBalance, -, h⟩ := Except.bind_eq_ok.mp h
  obtain ⟨-, rfl⟩ := safeGasToBalance_eq_ok.mp hburnt
  obtain ⟨-, rfl⟩ := subBalance_eq_ok.mp htx
  cases receiverAmount with
  | none =>
      dsimp only at h
      split at h <;>
      · simp only [pure, Except.pure, Except.ok.injEq] at h
        subst h
        simp [ReceiptBurn.rewardGiven]
  | some amount =>
      dsimp only at h
      split at h
      · next hpos =>
          obtain ⟨txBurnt', htx', h⟩ := Except.bind_eq_ok.mp h
          obtain ⟨amount', hamount', h⟩ := Except.bind_eq_ok.mp h
          obtain ⟨hle, rfl⟩ := subBalance_eq_ok.mp htx'
          obtain ⟨-, rfl⟩ := safeAddBalance_eq_ok.mp hamount'
          simp only [pure, Except.pure, Except.ok.injEq] at h
          subst h
          simp only [ReceiptBurn.rewardGiven, Option.map_some, and_true]
          omega
      · next hzero =>
          simp only [pure, Except.pure, Except.ok.injEq] at h
          subst h
          have hreward : rewardBalance - gasDeficitAmount = 0 := by omega
          simp [ReceiptBurn.rewardGiven, hreward]

/-- With `burnt_gas_reward` in `[0, 1]` and a deficit of at most the gas burnt at
the current price, no subtraction of the burn underflows. -/
theorem burnGas_ne_underflow (hdeficit : gasDeficitAmount ≤ gasPrice * result.gasBurnt.toNat)
    (hfc : result.gasBurntForFunctionCall ≤ result.gasBurnt)
    (hnumer : 0 ≤ burntGasReward.numer) (hle : burntGasReward.numer ≤ burntGasReward.denom) :
    burnGas gasPrice result gasDeficitAmount burntGasReward receiverAmount ≠
      .error (.panic .subtractWithOverflow) := by
  unfold burnGas
  refine Except.bind_ne_error (safeGasToBalance_ne_panic _) fun burnt hburnt => ?_
  obtain ⟨-, rfl⟩ := safeGasToBalance_eq_ok.mp hburnt
  rw [subBalance_of_le hdeficit]
  refine Except.bind_ne_error (by simp) fun txBurntAmount htx => ?_
  cases htx
  refine Except.bind_ne_error mulGas_ne_subtract fun product hproduct => ?_
  refine Except.bind_ne_error divGas_ne_subtract fun receiverGasReward hreward => ?_
  refine Except.bind_ne_error (safeGasToBalance_ne_panic _) fun rewardBalance hrewardBalance => ?_
  obtain ⟨-, rfl⟩ := safeGasToBalance_eq_ok.mp hrewardBalance
  -- the reward is paid out of the gas burnt, so it fits in the burnt amount
  have hgas : receiverGasReward.toNat ≤ result.gasBurnt.toNat :=
    (receiverGasReward_le hnumer hle hproduct hreward).trans (UInt64.le_iff_toNat_le.mp hfc)
  have hmono : gasPrice * receiverGasReward.toNat ≤ gasPrice * result.gasBurnt.toNat :=
    Nat.mul_le_mul_left _ hgas
  cases receiverAmount with
  | none =>
      dsimp only
      split <;> simp [pure, Except.pure]
  | some amount =>
      dsimp only
      split
      · rw [subBalance_of_le (by omega)]
        refine Except.bind_ne_error (by simp) fun _ _ => ?_
        exact Except.bind_ne_error (safeAddBalance_ne_panic _) fun _ _ => by simp [pure, Except.pure]
      · simp [pure, Except.pure]

end Burn

/-- Refund accounting of an action receipt whose predecessor is not the system
account, with the gas burnt by function calls at most the gas burnt, that at
most the gas used, that at most the gas paid for, and `burnt_gas_reward` in
`[0, 1]`: no subtraction underflows; and when the accounting succeeds, the
refunds, the burnt amount and the reward given to the receiver add up to the
deposit of a failed receipt and the gas paid for, at the price it was bought
for, less the gas used but not burnt by a receipt that succeeded.  The receiver's
balance grows by the reward given, and the deficit is at most the gas burnt at
the current price. -/
theorem refundsAndBurn_balance {gasPrice : ℕ} {predecessorId : AccountId}
    {actionReceipt : ActionReceipt} {result : ActionResult} {newActionReceiptExecFee : Gas}
    {burntGasReward : Rational32} {receiverAmount : Option ℕ} {stats : ApplyStats}
    (hfc : result.gasBurntForFunctionCall ≤ result.gasBurnt)
    (hburnt : result.gasBurnt ≤ result.gasUsed)
    (hused : result.gasUsed.toNat ≤ actionReceipt.prepaid newActionReceiptExecFee)
    (hnumer : 0 ≤ burntGasReward.numer) (hle : burntGasReward.numer ≤ burntGasReward.denom) :
    refundsAndBurn gasPrice predecessorId actionReceipt result newActionReceiptExecFee burntGasReward
        receiverAmount stats ≠ .error (.panic .subtractWithOverflow) ∧
      ∀ accounting, refundsAndBurn gasPrice predecessorId actionReceipt result newActionReceiptExecFee
          burntGasReward receiverAmount stats = .ok accounting →
        refundTotal accounting.refunds + accounting.burn.txBurntAmount + accounting.burn.rewardGiven =
          (if result.isErr then actionReceipt.totalDeposit else 0) +
            actionReceipt.gasPrice * (actionReceipt.prepaid newActionReceiptExecFee -
              (if result.isErr then 0 else result.gasUsed.toNat - result.gasBurnt.toNat)) ∧
        accounting.burn.receiverAmount = receiverAmount.map (· + accounting.burn.rewardGiven) ∧
        accounting.gasDeficitAmount ≤ gasPrice * result.gasBurnt.toNat := by
  constructor
  · unfold refundsAndBurn
    refine Except.bind_ne_error (generateRefundReceipts_ne_underflow hburnt hused)
      fun ⟨gasDeficitAmount, refunds⟩ hrefunds => ?_
    have hdeficit := (generateRefundReceipts_eq_ok hrefunds).2.2
    refine Except.bind_ne_error (safeAddBalance_ne_panic _) fun _ _ => ?_
    refine Except.bind_ne_error (burnGas_ne_underflow hdeficit hfc hnumer hle) fun _ _ => ?_
    exact Except.bind_ne_error (safeAddBalance_ne_panic _) fun _ _ => by simp [pure, Except.pure]
  · intro accounting h
    unfold refundsAndBurn at h
    obtain ⟨⟨gasDeficitAmount, refunds⟩, hrefunds, h⟩ := Except.bind_eq_ok.mp h
    obtain ⟨statsDeficit, -, h⟩ := Except.bind_eq_ok.mp h
    obtain ⟨burn, hburn, h⟩ := Except.bind_eq_ok.mp h
    obtain ⟨statsBurnt, -, h⟩ := Except.bind_eq_ok.mp h
    simp only [pure, Except.pure, Except.ok.injEq] at h
    subst h
    obtain ⟨hcharged, hrefunded, hdeficit⟩ := generateRefundReceipts_eq_ok hrefunds
    obtain ⟨hburnt', hreceiver⟩ := burnGas_eq_ok hburn
    have hgas : actionReceipt.prepaid newActionReceiptExecFee - result.gasCharged +
        result.gasBurnt.toNat = actionReceipt.prepaid newActionReceiptExecFee -
          (if result.isErr then 0 else result.gasUsed.toNat - result.gasBurnt.toNat) := by
      have := UInt64.le_iff_toNat_le.mp hburnt
      unfold ActionResult.gasCharged at hcharged ⊢
      split <;> omega
    refine ⟨?_, hreceiver, hdeficit⟩
    dsimp only
    rw [← hgas]
    unfold depositRefund at hrefunded
    generalize gasPrice * result.gasBurnt.toNat = cost at hrefunded hburnt' hdeficit
    omega

theorem refundsAndBurn_balance_priceRise :
    refundsAndBurn 2 "alice" ⟨"alice", .ed25519 (Vector.replicate 32 0), 1, 5, 10, 2, 3⟩
        ⟨6, 4, 8, false⟩ 1 ⟨3, 10, by decide⟩ (some 100) ⟨0, 0⟩ ≠
        .error (.panic .subtractWithOverflow) ∧
      ∀ accounting, refundsAndBurn 2 "alice"
          ⟨"alice", .ed25519 (Vector.replicate 32 0), 1, 5, 10, 2, 3⟩ ⟨6, 4, 8, false⟩ 1
          ⟨3, 10, by decide⟩ (some 100) ⟨0, 0⟩ = .ok accounting →
        refundTotal accounting.refunds + accounting.burn.txBurntAmount +
            accounting.burn.rewardGiven =
          (if false then 5 else 0) + 1 * (ActionReceipt.prepaid
            ⟨"alice", .ed25519 (Vector.replicate 32 0), 1, 5, 10, 2, 3⟩ 1 -
              (if false then 0 else (8 : Gas).toNat - (6 : Gas).toNat)) ∧
        accounting.burn.receiverAmount = (some 100).map (· + accounting.burn.rewardGiven) ∧
        accounting.gasDeficitAmount ≤ 2 * (6 : Gas).toNat :=
  refundsAndBurn_balance (by decide) (by decide) (by decide) (by decide) (by decide)

/-- Two ways the reward breaks the balance of the burnt amount.  A receiver whose account is gone by
the end of the receipt is not given `receiver_reward`, which stays in the burnt
amount, so adding it counts it twice; and with `burnt_gas_reward = -1`, which is
at most `1`, `-1 as u64` is `u64::MAX` and the reward exceeds the burnt amount. -/
theorem refundsAndBurn_reward_not_given_or_negative :
    (∃ accounting, refundsAndBurn 1 "alice"
        ⟨"alice", .ed25519 (Vector.replicate 32 0), 1, 0, 1, 0, 0⟩ ⟨1, 1, 1, false⟩ 0
        ⟨1, 1, by decide⟩ none ⟨0, 0⟩ = .ok accounting ∧
      refundTotal accounting.refunds + accounting.burn.txBurntAmount +
          accounting.burn.receiverReward ≠ 0 + 1 * (1 - (1 - 1))) ∧
    refundsAndBurn 1 "alice" ⟨"alice", .ed25519 (Vector.replicate 32 0), 1, 0, 1, 0, 0⟩
        ⟨1, 1, 1, false⟩ 0 ⟨-1, 1, by decide⟩ (some 0) ⟨0, 0⟩ =
      .error (.panic .subtractWithOverflow) := by
  refine ⟨⟨_, rfl, ?_⟩, rfl⟩
  decide

end Nearcore.Runtime
