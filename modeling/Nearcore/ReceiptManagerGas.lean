import Nearcore.GasCounterInvariant

/-!
# Distributing the unused gas of a call by weight

With `FunctionCallWeight`, a contract may give a function call it schedules a
gas weight.  When the call ends, `compute_outcome_and_distribute_gas`
(`logic.rs`) hands the unused gas to those calls through
`ReceiptManager::distribute_unused_gas` (`receipt_manager.rs`): each weighted
call gets the floor of its share, computed in `u128`, and the last one also
gets what the floors leave over.  If some call had a weight, the gas counter
then prepays all the unused gas.

Only the actions' kind and a function call's gas matter here; the other
actions are one constructor, and a receipt keeps only its actions.  The
outcome keeps the gas it reports and the receipts.

Where the weighted calls are distinct function calls whose gas can take all
the unused gas, the distribution does not panic, gives every call at least its
floor share and hands out exactly the unused gas, and the prepayment that
follows succeeds and leaves no gas unused (`computeOutcome_distributes_all`).
-/

set_option linter.unusedSectionVars false

namespace Nearcore
namespace VmLogic

structure FunctionCallAction where
  methodName : String
  args : List UInt8
  gas : Gas
  deposit : ℕ
  deriving DecidableEq, Repr

/-- `Action`: a function call, or one of the other actions, which the
distribution of gas neither reads nor writes. -/
inductive Action where
  | functionCall (action : FunctionCallAction)
  | other
  deriving DecidableEq, Repr

structure ReceiptMetadata where
  actions : List Action
  deriving DecidableEq, Repr

structure FunctionCallActionIndex where
  receiptIndex : ℕ
  actionIndex : ℕ
  deriving DecidableEq, Repr

structure ReceiptManager where
  actionReceipts : List (AccountId × ReceiptMetadata)
  /-- The weighted calls with their `GasWeight`. -/
  gasWeights : List (FunctionCallActionIndex × UInt64)

inductive GasDistribution where
  | all
  | noRatios
  deriving DecidableEq, Repr

/-- The closure `distribute_gas`: `*gas += assigned_gas` on the function call
that `get_fuction_call_action_mut` finds.  `none` where that panics on an index
that is not a function call, or where the addition overflows. -/
def distributeGas (actionReceipts : List (AccountId × ReceiptMetadata))
    (index : FunctionCallActionIndex) (assignedGas : Gas) :
    Option (List (AccountId × ReceiptMetadata)) :=
  match actionReceipts[index.receiptIndex]? with
  | some (receiver, receipt) =>
      match receipt.actions[index.actionIndex]? with
      | some (.functionCall action) =>
          (action.gas.checkedAdd assignedGas).map fun gas =>
            actionReceipts.set index.receiptIndex
              (receiver, ⟨receipt.actions.set index.actionIndex (.functionCall { action with gas })⟩)
      | _ => none
  | none => none

/-- One turn of the loop over `gas_weights`: the receipts and `distributed`.
The share is a `u128` quotient truncated `as u64`; `distributed +=
assigned_gas` panics where it overflows. -/
def distributeStep (unusedGas : Gas) (gasWeightSum : ℕ)
    (acc : List (AccountId × ReceiptMetadata) × Gas) (entry : FunctionCallActionIndex × UInt64) :
    Option (List (AccountId × ReceiptMetadata) × Gas) :=
  let assignedGas := UInt64.ofNat (unusedGas.toNat * entry.2.toNat / gasWeightSum)
  (distributeGas acc.1 entry.1 assignedGas).bind fun actionReceipts =>
    (acc.2.checkedAdd assignedGas).map fun distributed => (actionReceipts, distributed)

/-- `ReceiptManager::distribute_unused_gas`; `none` where it panics.  The
`u128` sum of the weights cannot overflow: a `Vec` has fewer than `2 ^ 64`
entries, each below `2 ^ 64`. -/
def ReceiptManager.distributeUnusedGas (self : ReceiptManager) (unusedGas : Gas) :
    Option (ReceiptManager × GasDistribution) :=
  let gasWeightSum := (self.gasWeights.map fun entry => entry.2.toNat).sum
  if gasWeightSum = 0 then some (self, .noRatios)
  else
    (self.gasWeights.foldlM (distributeStep unusedGas gasWeightSum) (self.actionReceipts, 0)).bind
      fun acc =>
        -- the rest, `unused_gas - distributed`, goes to the last weighted call
        let actionReceipts := match self.gasWeights.getLast? with
          | some (lastIdx, _) =>
              (unusedGas.checkedSub acc.2).bind (distributeGas acc.1 lastIdx)
          | none => some acc.1
        actionReceipts.map fun actionReceipts => ({ actionReceipts, gasWeights := [] }, .all)

/-- The gas that `VMOutcome` reports, and its receipts. -/
structure VMOutcome where
  burntGas : Gas
  usedGas : Gas
  actionReceipts : List (AccountId × ReceiptMetadata)

variable {ActionCosts ExtCosts : Type} [FinEnum ActionCosts] [FinEnum ExtCosts]

/-- The distribution in `compute_outcome_and_distribute_gas`, followed, where
all the unused gas went to weighted calls, by `prepay_gas(unused_gas).unwrap()`;
`none` where either panics. -/
def distributeAndPrepay (gasCounter : GasCounter ActionCosts ExtCosts)
    (receiptManager : ReceiptManager) : Option (GasCounter ActionCosts ExtCosts × ReceiptManager) :=
  let unusedGas := gasCounter.unusedGas
  (receiptManager.distributeUnusedGas unusedGas).bind fun
    | (receiptManager, .all) =>
        match gasCounter.prepayGas unusedGas with
        | some (.ok (), gasCounter) => some (gasCounter, receiptManager)
        | _ => none
    | (receiptManager, .noRatios) => some (gasCounter, receiptManager)

/-- `compute_outcome_and_distribute_gas`, for a context that is a view call
or not. -/
def computeOutcomeAndDistributeGas (isView : Bool) (gasCounter : GasCounter ActionCosts ExtCosts)
    (receiptManager : ReceiptManager) : Option VMOutcome :=
  (if isView then some (gasCounter, receiptManager)
    else distributeAndPrepay gasCounter receiptManager).map fun (gasCounter, receiptManager) =>
      { burntGas := gasCounter.fastCounter.burntGas
        usedGas := gasCounter.usedGas
        actionReceipts := receiptManager.actionReceipts }


/-! ## The distribution, one weighted call at a time -/

/-- The gas of the function call at `index`, `none` where there is none. -/
def functionCallGas (actionReceipts : List (AccountId × ReceiptMetadata))
    (index : FunctionCallActionIndex) : Option Gas :=
  match actionReceipts[index.receiptIndex]? with
  | some (_, receipt) =>
      match receipt.actions[index.actionIndex]? with
      | some (.functionCall action) => some action.gas
      | _ => none
  | none => none

/-- `distribute_gas` adds the gas to the call at `index` and leaves every other
call alone. -/
theorem distributeGas_spec {actionReceipts : List (AccountId × ReceiptMetadata)}
    {index : FunctionCallActionIndex} {assignedGas gas : Gas}
    (hgas : functionCallGas actionReceipts index = some gas)
    (hfit : gas.toNat + assignedGas.toNat < 2 ^ 64) :
    ∃ actionReceipts', distributeGas actionReceipts index assignedGas = some actionReceipts' ∧
      ∀ index', functionCallGas actionReceipts' index' =
        if index' = index then some (gas + assignedGas) else functionCallGas actionReceipts index' := by
  unfold functionCallGas at hgas
  unfold distributeGas
  split at hgas
  · next receiver receipt hreceipt =>
      split at hgas
      · next action haction =>
          cases hgas
          simp only [UInt64.checkedAdd, if_pos hfit, Option.map_some, Option.some.injEq,
            exists_eq_left']
          intro index'
          have hr : index.receiptIndex < actionReceipts.length :=
            (List.getElem?_eq_some_iff.mp hreceipt).1
          have ha : index.actionIndex < receipt.actions.length :=
            (List.getElem?_eq_some_iff.mp haction).1
          unfold functionCallGas
          by_cases hindex : index' = index
          · subst hindex
            simp [hr, ha]
          · rw [if_neg hindex, List.getElem?_set]
            by_cases hsame : index.receiptIndex = index'.receiptIndex
            · have hother : index.actionIndex ≠ index'.actionIndex := fun heq =>
                hindex (by cases index; cases index'; simp_all)
              rw [if_pos hsame, if_pos hr, ← hsame, hreceipt]
              simp [hother]
            · rw [if_neg hsame]
      · cases hgas
  · cases hgas

/-- The floor share of a weighted call, `unused_gas * weight / gas_weight_sum`. -/
def floorShare (unusedGas : Gas) (gasWeightSum : ℕ) (entry : FunctionCallActionIndex × UInt64) :
    ℕ :=
  unusedGas.toNat * entry.2.toNat / gasWeightSum

/-- The floor shares the loop hands to the call at `index`. -/
def sharesAt (unusedGas : Gas) (gasWeightSum : ℕ) (weights : List (FunctionCallActionIndex × UInt64))
    (index : FunctionCallActionIndex) : ℕ :=
  ((weights.filter fun entry => entry.1 = index).map (floorShare unusedGas gasWeightSum)).sum

theorem sharesAt_cons (unusedGas : Gas) (gasWeightSum : ℕ) (entry : FunctionCallActionIndex × UInt64)
    (weights : List (FunctionCallActionIndex × UInt64)) (index : FunctionCallActionIndex) :
    sharesAt unusedGas gasWeightSum (entry :: weights) index =
      (if entry.1 = index then floorShare unusedGas gasWeightSum entry else 0) +
        sharesAt unusedGas gasWeightSum weights index := by
  unfold sharesAt
  by_cases h : entry.1 = index <;> simp [h]

theorem distributeStep_eq (unusedGas : Gas) (gasWeightSum : ℕ)
    (actionReceipts : List (AccountId × ReceiptMetadata)) (distributed : Gas)
    (entry : FunctionCallActionIndex × UInt64) :
    distributeStep unusedGas gasWeightSum (actionReceipts, distributed) entry =
      (distributeGas actionReceipts entry.1
          (UInt64.ofNat (floorShare unusedGas gasWeightSum entry))).bind fun actionReceipts =>
        (distributed.checkedAdd (UInt64.ofNat (floorShare unusedGas gasWeightSum entry))).map
          fun distributed => (actionReceipts, distributed) := rfl

theorem toNat_add_ofNat_of_lt {a : UInt64} {n : ℕ} (h : a.toNat + n < 2 ^ 64) :
    (a + UInt64.ofNat n).toNat = a.toNat + n := by
  rw [UInt64.toNat_add, UInt64.toNat_ofNat', Nat.mod_eq_of_lt (by omega : n < 2 ^ 64),
    Nat.mod_eq_of_lt h]

/-- The loop over `gas_weights` adds to every call the floor shares of its
entries and adds them all to `distributed`, as long as no call's gas and not
`distributed` overflows. -/
theorem foldlM_distributeStep {unusedGas : Gas} {gasWeightSum : ℕ}
    {weights : List (FunctionCallActionIndex × UInt64)}
    {actionReceipts : List (AccountId × ReceiptMetadata)} {distributed : Gas}
    (hgas : ∀ entry ∈ weights, ∃ gas, functionCallGas actionReceipts entry.1 = some gas ∧
      gas.toNat + sharesAt unusedGas gasWeightSum weights entry.1 < 2 ^ 64)
    (hsum : distributed.toNat + (weights.map (floorShare unusedGas gasWeightSum)).sum < 2 ^ 64) :
    ∃ actionReceipts' distributed',
      weights.foldlM (distributeStep unusedGas gasWeightSum) (actionReceipts, distributed) =
        some (actionReceipts', distributed') ∧
      distributed'.toNat = distributed.toNat + (weights.map (floorShare unusedGas gasWeightSum)).sum ∧
      ∀ index, functionCallGas actionReceipts' index = (functionCallGas actionReceipts index).map
        (· + UInt64.ofNat (sharesAt unusedGas gasWeightSum weights index)) := by
  induction weights generalizing actionReceipts distributed with
  | nil => exact ⟨actionReceipts, distributed, rfl, by simp, fun index => by simp [sharesAt]⟩
  | cons entry weights ih =>
      obtain ⟨gas, hgas₀, hfit₀⟩ := hgas entry List.mem_cons_self
      have hshares := sharesAt_cons unusedGas gasWeightSum entry weights entry.1
      rw [if_pos rfl] at hshares
      rw [List.map_cons, List.sum_cons] at hsum
      have hshare : (UInt64.ofNat (floorShare unusedGas gasWeightSum entry)).toNat =
          floorShare unusedGas gasWeightSum entry := by
        rw [UInt64.toNat_ofNat']
        omega
      obtain ⟨actionReceipts₁, hdistribute, hframe⟩ :=
        distributeGas_spec hgas₀ (by rw [hshare]; omega)
      have hadd : distributed.checkedAdd (UInt64.ofNat (floorShare unusedGas gasWeightSum entry)) =
          some (distributed + UInt64.ofNat (floorShare unusedGas gasWeightSum entry)) := by
        rw [UInt64.checkedAdd, if_pos (by rw [hshare]; omega)]
      have hdistributed :
          (distributed + UInt64.ofNat (floorShare unusedGas gasWeightSum entry)).toNat =
            distributed.toNat + floorShare unusedGas gasWeightSum entry :=
        toNat_add_ofNat_of_lt (by omega)
      have hgas₁ : ∀ entry' ∈ weights, ∃ gas, functionCallGas actionReceipts₁ entry'.1 = some gas ∧
          gas.toNat + sharesAt unusedGas gasWeightSum weights entry'.1 < 2 ^ 64 := by
        intro entry' hentry'
        obtain ⟨gas', hgas', hfit'⟩ := hgas entry' (List.mem_cons_of_mem _ hentry')
        rw [sharesAt_cons] at hfit'
        rw [hframe]
        by_cases hsame : entry'.1 = entry.1
        · rw [if_pos hsame]
          rw [hsame, hgas₀, Option.some.injEq] at hgas'
          subst hgas'
          rw [if_pos hsame.symm] at hfit'
          refine ⟨gas + UInt64.ofNat (floorShare unusedGas gasWeightSum entry), rfl, ?_⟩
          rw [toNat_add_ofNat_of_lt (by omega), hsame]
          omega
        · rw [if_neg hsame]
          rw [if_neg (Ne.symm hsame)] at hfit'
          exact ⟨gas', hgas', by omega⟩
      obtain ⟨actionReceipts', distributed', hloop, hdistributed', hgas'⟩ :=
        ih hgas₁ (by rw [hdistributed]; omega)
      refine ⟨actionReceipts', distributed', ?_, by rw [hdistributed', hdistributed]; simp; omega, ?_⟩
      · rw [List.foldlM_cons, distributeStep_eq, hdistribute, Option.bind_some, hadd,
          Option.map_some]
        exact hloop
      · intro index
        rw [hgas', hframe, sharesAt_cons]
        by_cases hindex : index = entry.1
        · rw [if_pos hindex, hindex, if_pos rfl, hgas₀]
          simp [UInt64.ofNat_add, UInt64.add_assoc]
        · rw [if_neg hindex, if_neg (Ne.symm hindex), Nat.zero_add]

theorem sum_floorShare_le (unusedGas : Gas) (weights : List (FunctionCallActionIndex × UInt64)) :
    (weights.map (floorShare unusedGas (weights.map fun entry => entry.2.toNat).sum)).sum ≤
      unusedGas.toNat := by
  generalize hW : (weights.map fun entry => entry.2.toNat).sum = W
  have hdiv : ∀ l : List (FunctionCallActionIndex × UInt64),
      (l.map (floorShare unusedGas W)).sum ≤ (l.map fun entry => unusedGas.toNat * entry.2.toNat).sum / W := by
    intro l
    induction l with
    | nil => simp
    | cons entry l ih =>
        simp only [List.map_cons, List.sum_cons, floorShare]
        exact (Nat.add_le_add_left ih _).trans Nat.div_add_div_le_add_div
  refine (hdiv weights).trans ?_
  rw [List.sum_map_mul_left, hW]
  rcases Nat.eq_zero_or_pos W with h | h
  · simp [h]
  · rw [Nat.mul_div_cancel _ h]

theorem sharesAt_of_nodup {unusedGas : Gas} {gasWeightSum : ℕ}
    {weights : List (FunctionCallActionIndex × UInt64)} (hnodup : (weights.map Prod.fst).Nodup)
    {entry : FunctionCallActionIndex × UInt64} (hentry : entry ∈ weights) :
    sharesAt unusedGas gasWeightSum weights entry.1 = floorShare unusedGas gasWeightSum entry := by
  induction weights with
  | nil => cases hentry
  | cons head weights ih =>
      obtain ⟨hhead, hnodup⟩ := List.nodup_cons.mp hnodup
      rw [sharesAt_cons]
      rcases List.mem_cons.mp hentry with rfl | hentry
      · have hnone : sharesAt unusedGas gasWeightSum weights entry.1 = 0 := by
          simp only [sharesAt, List.sum_eq_zero_iff, List.mem_map, List.mem_filter,
            decide_eq_true_eq]
          rintro _ ⟨entry', ⟨hentry', hsame⟩, -⟩
          exact absurd (hsame ▸ List.mem_map_of_mem hentry') hhead
        rw [if_pos rfl, hnone, Nat.add_zero]
      · have hne : head.1 ≠ entry.1 := fun hsame => hhead (hsame ▸ List.mem_map_of_mem hentry)
        rw [if_neg hne, Nat.zero_add, ih hnodup hentry]

theorem sharesAt_of_not_mem {unusedGas : Gas} {gasWeightSum : ℕ}
    {weights : List (FunctionCallActionIndex × UInt64)} {index : FunctionCallActionIndex}
    (hindex : index ∉ weights.map Prod.fst) : sharesAt unusedGas gasWeightSum weights index = 0 := by
  simp only [sharesAt, List.sum_eq_zero_iff, List.mem_map, List.mem_filter, decide_eq_true_eq]
  rintro _ ⟨entry, ⟨hentry, rfl⟩, -⟩
  exact absurd (List.mem_map_of_mem hentry) hindex

theorem sum_ite_fst_of_nodup {weights : List (FunctionCallActionIndex × UInt64)}
    (hnodup : (weights.map Prod.fst).Nodup) {entry : FunctionCallActionIndex × UInt64}
    (hentry : entry ∈ weights) (r : ℕ) :
    (weights.map fun entry' => if entry'.1 = entry.1 then r else 0).sum = r := by
  induction weights with
  | nil => cases hentry
  | cons head weights ih =>
      obtain ⟨hhead, hnodup⟩ := List.nodup_cons.mp hnodup
      rw [List.map_cons, List.sum_cons]
      rcases List.mem_cons.mp hentry with rfl | hentry
      · have hnone : ∀ entry' ∈ weights, entry'.1 ≠ entry.1 := fun entry' hentry' hsame =>
          hhead (hsame ▸ List.mem_map_of_mem hentry')
        have hzero : ∀ x ∈ weights.map (fun entry' => if entry'.1 = entry.1 then r else 0), x = 0 := by
          intro x hx
          obtain ⟨entry', hentry', rfl⟩ := List.mem_map.mp hx
          rw [if_neg (hnone entry' hentry')]
        rw [if_pos rfl, List.sum_eq_zero hzero, Nat.add_zero]
      · have hne : head.1 ≠ entry.1 := fun hsame => hhead (hsame ▸ List.mem_map_of_mem hentry)
        rw [if_neg hne, Nat.zero_add, ih hnodup hentry]

/-- Every weighted call is a function call whose gas can take `unusedGas`
without overflow. -/
def ReceiptManager.CanTake (self : ReceiptManager) (unusedGas : Gas) : Prop :=
  ∀ entry ∈ self.gasWeights, ∃ gas,
    functionCallGas self.actionReceipts entry.1 = some gas ∧ gas.toNat + unusedGas.toNat < 2 ^ 64

/-- Where the weighted calls are distinct function calls whose gas can take all
the unused gas, `distribute_unused_gas` does not panic: it hands out exactly the
unused gas, every call getting at least its floor share, leaves every other call
alone and clears `gas_weights`. -/
theorem distributeUnusedGas_spec {self : ReceiptManager} {unusedGas : Gas}
    (hpos : (self.gasWeights.map fun entry => entry.2.toNat).sum ≠ 0)
    (hnodup : (self.gasWeights.map Prod.fst).Nodup)
    (hgas : self.CanTake unusedGas) :
    ∃ (actionReceipts : List (AccountId × ReceiptMetadata)) (amount : FunctionCallActionIndex → ℕ),
      self.distributeUnusedGas unusedGas = some (⟨actionReceipts, []⟩, .all) ∧
      (self.gasWeights.map fun entry => amount entry.1).sum = unusedGas.toNat ∧
      (∀ entry ∈ self.gasWeights,
        unusedGas.toNat * entry.2.toNat / (self.gasWeights.map fun entry => entry.2.toNat).sum ≤
          amount entry.1 ∧
        (functionCallGas actionReceipts entry.1).map UInt64.toNat =
          (functionCallGas self.actionReceipts entry.1).map (·.toNat + amount entry.1)) ∧
      ∀ index, index ∉ self.gasWeights.map Prod.fst →
        functionCallGas actionReceipts index = functionCallGas self.actionReceipts index := by
  obtain ⟨actionReceipts, gasWeights⟩ := self
  unfold ReceiptManager.CanTake at hgas
  dsimp only at hpos hnodup hgas ⊢
  have hshares := sum_floorShare_le unusedGas gasWeights
  generalize hW : (gasWeights.map fun entry => entry.2.toNat).sum = W at hpos hshares ⊢
  generalize hsum : (gasWeights.map (floorShare unusedGas W)).sum = S at hshares
  have hfloor : ∀ entry ∈ gasWeights, floorShare unusedGas W entry ≤ S := fun entry hentry =>
    hsum ▸ List.le_sum_of_mem (List.mem_map_of_mem hentry)
  obtain ⟨actionReceipts₁, distributed, hloop, hdistributed, hgas₁⟩ :=
    @foldlM_distributeStep unusedGas W gasWeights actionReceipts 0 (fun entry hentry => by
      obtain ⟨gas, hgas, hfit⟩ := hgas entry hentry
      refine ⟨gas, hgas, ?_⟩
      rw [sharesAt_of_nodup hnodup hentry]
      have := hfloor entry hentry
      omega) (by rw [hsum]; simp; exact hshares.trans_lt unusedGas.toNat_lt)
  have hdistributed' : distributed.toNat = S := by simpa [hsum] using hdistributed
  have hg := unusedGas.toNat_lt
  obtain ⟨last, hlast⟩ : ∃ last, gasWeights.getLast? = some last := by
    cases h : gasWeights.getLast? with
    | none =>
        rw [List.getLast?_eq_none_iff] at h
        subst h
        exact absurd hW.symm hpos
    | some last => exact ⟨last, rfl⟩
  have hlastMem := List.mem_of_getLast? hlast
  obtain ⟨gasLast, hgasLast, hfitLast⟩ := hgas last hlastMem
  have hshareLast := hfloor last hlastMem
  have hle : distributed ≤ unusedGas := UInt64.le_iff_toNat_le.mpr (by omega)
  have hsub : unusedGas.checkedSub distributed = some (unusedGas - distributed) := by
    rw [UInt64.checkedSub, if_pos hle]
  have hrest : (unusedGas - distributed).toNat = unusedGas.toNat - S := by
    rw [UInt64.toNat_sub_of_le _ _ hle, hdistributed']
  have hgasLast₁ : functionCallGas actionReceipts₁ last.1 =
      some (gasLast + UInt64.ofNat (floorShare unusedGas W last)) := by
    rw [hgas₁, hgasLast, sharesAt_of_nodup hnodup hlastMem]
    rfl
  have hsumLast : (gasLast + UInt64.ofNat (floorShare unusedGas W last)).toNat =
      gasLast.toNat + floorShare unusedGas W last :=
    toNat_add_ofNat_of_lt (by omega)
  obtain ⟨actionReceipts₂, hdistribute, hframe⟩ :=
    @distributeGas_spec actionReceipts₁ last.1 (unusedGas - distributed) _ hgasLast₁
      (by rw [hsumLast, hrest]; omega)
  refine ⟨actionReceipts₂, fun index => sharesAt unusedGas W gasWeights index +
    if index = last.1 then unusedGas.toNat - S else 0, ?_, ?_, fun entry hentry => ?_,
    fun index hindex => ?_⟩
  · unfold ReceiptManager.distributeUnusedGas
    dsimp only
    rw [hW, if_neg hpos, hloop, Option.bind_some, hlast]
    dsimp only
    rw [hsub, Option.bind_some, hdistribute, Option.map_some]
  · rw [List.sum_map_add, sum_ite_fst_of_nodup hnodup hlastMem]
    have hshares : (gasWeights.map fun entry => sharesAt unusedGas W gasWeights entry.1).sum = S := by
      rw [← hsum]
      congr 1
      exact List.map_congr_left fun entry hentry => sharesAt_of_nodup hnodup hentry
    omega
  · obtain ⟨gas, hgas₀, hfit⟩ := hgas entry hentry
    have hshare : sharesAt unusedGas W gasWeights entry.1 = floorShare unusedGas W entry :=
      sharesAt_of_nodup hnodup hentry
    have hfloorEntry := hfloor entry hentry
    dsimp only
    rw [hshare]
    refine ⟨Nat.le_add_right _ _, ?_⟩
    rw [hframe, hgas₀]
    by_cases hlastEq : entry.1 = last.1
    · -- the last call also gets the rest, `unused_gas - distributed`
      have hshareEq : floorShare unusedGas W entry = floorShare unusedGas W last := by
        rw [← hshare, ← sharesAt_of_nodup hnodup hlastMem, hlastEq]
      rw [if_pos hlastEq, if_pos hlastEq]
      rw [hlastEq, hgasLast, Option.some.injEq] at hgas₀
      subst hgas₀
      have hlt : gasLast.toNat + floorShare unusedGas W last + (unusedGas.toNat - S) < 2 ^ 64 := by
        omega
      rw [Option.map_some, Option.map_some, UInt64.toNat_add, hsumLast, hrest, hshareEq,
        Nat.mod_eq_of_lt hlt, Nat.add_assoc]
    · rw [if_neg hlastEq, if_neg hlastEq, hgas₁, hgas₀, hshare, Option.map_some, Option.map_some,
        Option.map_some, toNat_add_ofNat_of_lt (by omega), Nat.add_zero]
  · have hne : index ≠ last.1 := fun h => hindex (h ▸ List.mem_map_of_mem hlastMem)
    rw [hframe, if_neg hne, hgas₁, sharesAt_of_not_mem hindex]
    cases functionCallGas actionReceipts index <;> simp

/-! ## The prepayment that follows -/

/-- From a bounded counter, `prepay_gas(unused_gas)` succeeds: the promised gas
takes up all the unused gas, so that the used gas becomes the prepaid gas. -/
theorem GasCounter.Bounded.prepayGas_unusedGas {c : GasCounter ActionCosts ExtCosts}
    (hc : c.Bounded) :
    ∃ c', c.prepayGas c.unusedGas = some (.ok (), c') ∧
      c'.fastCounter.burntGas = c.fastCounter.burntGas ∧ c'.usedGas = c.prepaidGas := by
  obtain ⟨-, husedNat, -, hunused, -, -⟩ := hc.accounted
  have hmax := hc.burnt_le_max
  have hused := hc.used_le_prepaid
  have hprepaid := c.prepaidGas.toNat_lt
  have hburntLt := c.fastCounter.burntGas.toNat_lt
  have hpromisesNat : c.promisesGas.toNat + c.unusedGas.toNat =
      c.prepaidGas.toNat - c.fastCounter.burntGas.toNat := by
    omega
  have hpromises : c.promisesGas.checkedAdd c.unusedGas = some (c.promisesGas + c.unusedGas) := by
    rw [UInt64.checkedAdd, if_pos (by omega)]
  have hburnt : c.fastCounter.burntGas.checkedAdd 0 = some c.fastCounter.burntGas := by
    rw [UInt64.checkedAdd, if_pos (by rw [UInt64.toNat_zero]; omega), UInt64.add_zero]
  have hnewUsed : c.fastCounter.burntGas.checkedAdd (c.promisesGas + c.unusedGas) =
      some c.prepaidGas := by
    apply UInt64.checkedAdd_eq_some_iff.mpr
    rw [UInt64.toNat_add, Nat.mod_eq_of_lt (by omega)]
    omega
  have hfits : c.fastCounter.burntGas ≤ c.maxGasBurnt ∧ c.prepaidGas ≤ c.prepaidGas :=
    ⟨UInt64.le_iff_toNat_le.mpr hmax, UInt64.le_refl _⟩
  unfold GasCounter.prepayGas GasCounter.deductGas
  rw [if_pos UInt64.zero_le, UInt64.sub_zero]
  dsimp only
  rw [hpromises]
  dsimp only
  rw [hburnt]
  dsimp only
  rw [hnewUsed]
  dsimp only
  rw [if_pos hfits]
  refine ⟨_, rfl, rfl, ?_⟩
  apply UInt64.toNat_inj.mp
  unfold GasCounter.usedGas
  dsimp only
  rw [UInt64.toNat_add, UInt64.toNat_add, Nat.mod_eq_of_lt (by omega), Nat.mod_eq_of_lt (by omega)]
  omega

/-- `distribute_unused_gas` handing out all the unused gas, then `prepay_gas`
returning `Ok`, is what `distributeAndPrepay` does. -/
theorem distributeAndPrepay_of_all {gasCounter gasCounter' : GasCounter ActionCosts ExtCosts}
    {receiptManager receiptManager' : ReceiptManager}
    (hdistribute : receiptManager.distributeUnusedGas gasCounter.unusedGas =
      some (receiptManager', .all))
    (hprepay : gasCounter.prepayGas gasCounter.unusedGas = some (.ok (), gasCounter')) :
    distributeAndPrepay gasCounter receiptManager = some (gasCounter', receiptManager') := by
  unfold distributeAndPrepay
  dsimp only
  rw [hdistribute, Option.bind_some]
  dsimp only
  rw [hprepay]

/-- The distribution of the unused gas by weight, and the call to it at the end
of a function call.  Take weighted calls that are distinct, with weights that do
not sum to zero.  For every amount of unused gas that each call's gas can take,
`distribute_unused_gas` hands it all out without panicking, every call getting
at least its floor share, and clears `gas_weights`.  And for every gas counter
reached from `GasCounter::new` by calls that returned `Ok` and at most one more
call, whatever it returned (`VMOutcome::abort` computes the outcome after a
failed charge), whose unused gas the calls can take,
`compute_outcome_and_distribute_gas` neither panics in the distribution nor in
`prepay_gas(unused_gas).unwrap()`, and reports the prepaid gas as used. -/
theorem computeOutcome_distributes_all {self : ReceiptManager}
    (hpos : (self.gasWeights.map fun entry => entry.2.toNat).sum ≠ 0)
    (hnodup : (self.gasWeights.map Prod.fst).Nodup) :
    (∀ unusedGas : Gas, self.CanTake unusedGas →
      ∃ (actionReceipts : List (AccountId × ReceiptMetadata)) (amount : FunctionCallActionIndex → ℕ),
        self.distributeUnusedGas unusedGas = some (⟨actionReceipts, []⟩, .all) ∧
        (self.gasWeights.map fun entry => amount entry.1).sum = unusedGas.toNat ∧
        (∀ entry ∈ self.gasWeights,
          unusedGas.toNat * entry.2.toNat / (self.gasWeights.map fun entry => entry.2.toNat).sum ≤
            amount entry.1 ∧
          (functionCallGas actionReceipts entry.1).map UInt64.toNat =
            (functionCallGas self.actionReceipts entry.1).map (·.toNat + amount entry.1)) ∧
        ∀ index, index ∉ self.gasWeights.map Prod.fst →
          functionCallGas actionReceipts index = functionCallGas self.actionReceipts index) ∧
    ∀ (extCostsConfig : ExtCostsConfig ExtCosts) (maxGasBurnt : Gas) (opcodeCost : UInt32)
      (prepaidGas : Gas) (lastOk gasCounter : GasCounter ActionCosts ExtCosts),
      Relation.ReflTransGen GasCall.OkStep
        (GasCounter.new extCostsConfig maxGasBurnt opcodeCost prepaidGas false) lastOk →
      Relation.ReflGen GasCall.Step lastOk gasCounter →
      self.CanTake gasCounter.unusedGas →
      ∃ (receiptManager : ReceiptManager) (outcome : VMOutcome),
        self.distributeUnusedGas gasCounter.unusedGas = some (receiptManager, .all) ∧
        computeOutcomeAndDistributeGas false gasCounter self = some outcome ∧
        outcome.usedGas = gasCounter.prepaidGas ∧
        outcome.burntGas = gasCounter.fastCounter.burntGas ∧
        outcome.actionReceipts = receiptManager.actionReceipts := by
  refine ⟨fun unusedGas hgas => distributeUnusedGas_spec hpos hnodup hgas, ?_⟩
  intro extCostsConfig maxGasBurnt opcodeCost prepaidGas lastOk gasCounter hrun hlast hgas
  have hc := GasCall.bounded_of_okSteps_step
    (GasCounter.synced_new extCostsConfig maxGasBurnt opcodeCost prepaidGas) hrun hlast
  obtain ⟨actionReceipts, -, hdistribute, -⟩ := distributeUnusedGas_spec hpos hnodup hgas
  obtain ⟨gasCounter', hprepay, hburnt, hused⟩ := hc.prepayGas_unusedGas
  refine ⟨⟨actionReceipts, []⟩,
    ⟨gasCounter'.fastCounter.burntGas, gasCounter'.usedGas, actionReceipts⟩,
    hdistribute, ?_, hused, hburnt, rfl⟩
  unfold computeOutcomeAndDistributeGas
  rw [if_neg Bool.false_ne_true, distributeAndPrepay_of_all hdistribute hprepay, Option.map_some]

/-- Bob's receipt with two function calls of weights 1 and 2. -/
def bobReceipts : ReceiptManager :=
  ⟨[("bob", ⟨[.functionCall ⟨"f", [], 0, 0⟩, .functionCall ⟨"g", [], 0, 0⟩]⟩)],
    [(⟨0, 0⟩, 1), (⟨0, 1⟩, 2)]⟩

/-- After a burn of 4 that returned `Ok` and one of 100 that failed at the limit of 10, the
10 unused gas of a prepaid 20 goes to bob's two calls, and all 20 is used. -/
theorem computeOutcome_distributes_all_afterFailedBurn :
    ((GasCounter.new ⟨fun _ => 3⟩ 10 1 20 false : GasCounter Unit Unit).burnGas 4).1 = .ok () ∧
    (((GasCounter.new ⟨fun _ => 3⟩ 10 1 20 false : GasCounter Unit Unit).burnGas 4).2.burnGas 100).1 ≠
      .ok () ∧
    ∃ (receiptManager : ReceiptManager) (outcome : VMOutcome),
      bobReceipts.distributeUnusedGas
          (((GasCounter.new ⟨fun _ => 3⟩ 10 1 20 false : GasCounter Unit Unit).burnGas 4).2.burnGas
            100).2.unusedGas = some (receiptManager, .all) ∧
      computeOutcomeAndDistributeGas false
          (((GasCounter.new ⟨fun _ => 3⟩ 10 1 20 false : GasCounter Unit Unit).burnGas 4).2.burnGas
            100).2 bobReceipts = some outcome ∧
      outcome.usedGas = 20 ∧ outcome.burntGas = 10 ∧
      outcome.actionReceipts = receiptManager.actionReceipts := by
  have hok : ((GasCounter.new ⟨fun _ => 3⟩ 10 1 20 false : GasCounter Unit Unit).burnGas 4).1 = .ok () := by
    decide
  have hrun : Relation.ReflTransGen GasCall.OkStep
      (GasCounter.new ⟨fun _ => 3⟩ 10 1 20 false : GasCounter Unit Unit)
      ((GasCounter.new ⟨fun _ => 3⟩ 10 1 20 false : GasCounter Unit Unit).burnGas 4).2 :=
    .single ⟨.burnGas 4, by rw [GasCall.run, ← hok]⟩
  have hlast : Relation.ReflGen GasCall.Step
      ((GasCounter.new ⟨fun _ => 3⟩ 10 1 20 false : GasCounter Unit Unit).burnGas 4).2
      (((GasCounter.new ⟨fun _ => 3⟩ 10 1 20 false : GasCounter Unit Unit).burnGas 4).2.burnGas 100).2 :=
    .single ⟨.burnGas 100, _, rfl⟩
  have hgas : bobReceipts.CanTake
      (((GasCounter.new ⟨fun _ => 3⟩ 10 1 20 false : GasCounter Unit Unit).burnGas 4).2.burnGas
        100).2.unusedGas := by
    intro entry hentry
    simp only [bobReceipts, List.mem_cons, List.not_mem_nil, or_false] at hentry
    rcases hentry with rfl | rfl
    · exact ⟨0, rfl, by decide⟩
    · exact ⟨0, rfl, by decide⟩
  obtain ⟨receiptManager, outcome, hdistribute, hcompute, hused, hburnt, hreceipts⟩ :=
    (computeOutcome_distributes_all
      (show (bobReceipts.gasWeights.map fun entry => entry.2.toNat).sum ≠ 0 by decide)
      (by decide)).2 _ _ _ _ _ _ hrun hlast hgas
  exact ⟨hok, by decide, receiptManager, outcome, hdistribute, hcompute, hused, by rw [hburnt]; decide,
    hreceipts⟩

end VmLogic
end Nearcore
