import Nearcore.RustArith
import Nearcore.Primitives
import Mathlib.Data.FinEnum
import Mathlib.Algebra.BigOperators.Group.Finset.Basic

/-!
# The gas counter of a contract call

`GasCounter` of `near-vm-logic` (`gas_counter.rs`) and the part of
`ProfileDataV3` (`profile.rs`) it writes.  A host function charges gas
through `burn_gas`, `pay_base`, `pay_per`, `deduct_gas`,
`pay_action_accumulated` or `prepay_gas`.  Each of them takes `&mut self`
and returns a `Result`, and the error path of the limit check changes the
counter before it returns `Err`, so a call is modelled as a function from
the counter to a result together with the new counter.

The two cost enumerations (`ActionCosts`, `ExtCosts`) are only used as the
index sets of the profile's `EnumMap`s; they are kept as parameters with a
`FinEnum` instance, whose list order is the order of `EnumMap::as_slice`.
-/

namespace Nearcore
namespace VmLogic

/-- The variants of `HostError` that the modelled host functions return. -/
inductive HostError where
  | integerOverflow
  | gasExceeded
  | gasLimitExceeded
  | memoryAccessViolation
  | prohibitedInView (methodName : String)
  | keyLengthExceeded (length limit : UInt64)
  | valueLengthExceeded (length limit : UInt64)
  deriving DecidableEq, Repr

structure FastGasCounter where
  burntGas : Gas
  gasLimit : Gas
  opcodeCost : Gas
  deriving DecidableEq, Repr

structure ExtCostsConfig (ExtCosts : Type) where
  costs : ExtCosts → Gas

variable {ActionCosts ExtCosts : Type} [FinEnum ActionCosts] [FinEnum ExtCosts]

structure ProfileDataV3 (ActionCosts ExtCosts : Type) where
  actionsProfile : ActionCosts → Gas
  wasmExtProfile : ExtCosts → Gas
  wasmGas : Gas

namespace ProfileDataV3

def new : ProfileDataV3 ActionCosts ExtCosts :=
  { actionsProfile := fun _ => 0, wasmExtProfile := fun _ => 0, wasmGas := 0 }

def addActionCost (p : ProfileDataV3 ActionCosts ExtCosts) (action : ActionCosts)
    (value : Gas) : ProfileDataV3 ActionCosts ExtCosts :=
  { p with
    actionsProfile := Function.update p.actionsProfile action
      ((p.actionsProfile action).saturatingAdd value) }

def addExtCost (p : ProfileDataV3 ActionCosts ExtCosts) (ext : ExtCosts)
    (value : Gas) : ProfileDataV3 ActionCosts ExtCosts :=
  { p with
    wasmExtProfile := Function.update p.wasmExtProfile ext
      ((p.wasmExtProfile ext).saturatingAdd value) }

def hostGas (p : ProfileDataV3 ActionCosts ExtCosts) : Gas :=
  ((FinEnum.toList ExtCosts).map p.wasmExtProfile).foldl UInt64.saturatingAdd 0

def actionGas (p : ProfileDataV3 ActionCosts ExtCosts) : Gas :=
  ((FinEnum.toList ActionCosts).map p.actionsProfile).foldl UInt64.saturatingAdd 0

def computeWasmInstructionCost (p : ProfileDataV3 ActionCosts ExtCosts)
    (totalGasBurnt : Gas) : ProfileDataV3 ActionCosts ExtCosts :=
  { p with wasmGas := (totalGasBurnt.saturatingSub p.actionGas).saturatingSub p.hostGas }

end ProfileDataV3

structure GasCounter (ActionCosts ExtCosts : Type) where
  fastCounter : FastGasCounter
  promisesGas : Gas
  maxGasBurnt : Gas
  prepaidGas : Gas
  isView : Bool
  extCostsConfig : ExtCostsConfig ExtCosts
  profile : ProfileDataV3 ActionCosts ExtCosts

namespace GasCounter

def new (extCostsConfig : ExtCostsConfig ExtCosts) (maxGasBurnt : Gas) (opcodeCost : UInt32)
    (prepaidGas : Gas) (isView : Bool) : GasCounter ActionCosts ExtCosts :=
  let prepaidGas := if isView then UInt64.maxValue else prepaidGas
  { extCostsConfig
    fastCounter :=
      { burntGas := 0, gasLimit := min maxGasBurnt prepaidGas, opcodeCost := opcodeCost.toUInt64 }
    maxGasBurnt
    promisesGas := 0
    prepaidGas
    isView
    profile := ProfileDataV3.new }

def withBurntGas (self : GasCounter ActionCosts ExtCosts) (burntGas : Gas) :
    GasCounter ActionCosts ExtCosts :=
  { self with fastCounter := { self.fastCounter with burntGas } }

/-- `GasCounter::process_gas_limit`: clamps the burnt gas at the hard limit,
recomputes the promise gas with a saturating subtraction, and picks the
error.  Its `debug_assert!` is not compiled into release builds. -/
def processGasLimit (self : GasCounter ActionCosts ExtCosts) (newBurntGas newUsedGas : Gas) :
    HostError × GasCounter ActionCosts ExtCosts :=
  let hardBurntLimit := min self.prepaidGas self.maxGasBurnt
  let self := self.withBurntGas (min newBurntGas hardBurntLimit)
  let usedGasLimit := min self.prepaidGas newUsedGas
  let self := { self with promisesGas := usedGasLimit.saturatingSub self.fastCounter.burntGas }
  (if newBurntGas > self.maxGasBurnt then .gasLimitExceeded else .gasExceeded, self)

/-- `GasCounter::deduct_gas`.  Its `assert!(gas_burnt <= gas_used)` aborts
the process, which the model returns as `none`. -/
def deductGas (self : GasCounter ActionCosts ExtCosts) (gasBurnt gasUsed : Gas) :
    Option (Except HostError Unit × GasCounter ActionCosts ExtCosts) :=
  if gasBurnt ≤ gasUsed then
    let promisesGas := gasUsed - gasBurnt
    some <|
      match self.promisesGas.checkedAdd promisesGas with
      | none => (.error .integerOverflow, self)
      | some newPromisesGas =>
        match self.fastCounter.burntGas.checkedAdd gasBurnt with
        | none => (.error .integerOverflow, self)
        | some newBurntGas =>
          match newBurntGas.checkedAdd newPromisesGas with
          | none => (.error .integerOverflow, self)
          | some newUsedGas =>
            if newBurntGas ≤ self.maxGasBurnt ∧ newUsedGas ≤ self.prepaidGas then
              let gasLimit :=
                if promisesGas ≠ 0 ∧ self.isView = false then
                  min self.maxGasBurnt (self.prepaidGas - newPromisesGas)
                else self.fastCounter.gasLimit
              (.ok (),
                { self with
                  fastCounter := { self.fastCounter with gasLimit, burntGas := newBurntGas }
                  promisesGas := newPromisesGas })
            else
              let (err, self) := self.processGasLimit newBurntGas newUsedGas
              (.error err, self)
  else none

/-- `GasCounter::burn_gas`, the cheap path that compares with the cached
`gas_limit`.  On failure it passes the used gas computed with a wrapping
addition, as the source does. -/
def burnGas (self : GasCounter ActionCosts ExtCosts) (gasBurnt : Gas) :
    Except HostError Unit × GasCounter ActionCosts ExtCosts :=
  match self.fastCounter.burntGas.checkedAdd gasBurnt with
  | none => (.error .integerOverflow, self)
  | some newBurntGas =>
    if newBurntGas ≤ self.fastCounter.gasLimit then
      (.ok (), self.withBurntGas newBurntGas)
    else
      let newUsedGas := newBurntGas + self.promisesGas
      let (err, self) := self.processGasLimit newBurntGas newUsedGas
      (.error err, self)

def updateProfileHost (self : GasCounter ActionCosts ExtCosts) (cost : ExtCosts) (value : Gas) :
    GasCounter ActionCosts ExtCosts :=
  { self with profile := self.profile.addExtCost cost value }

def updateProfileAction (self : GasCounter ActionCosts ExtCosts) (action : ActionCosts)
    (value : Gas) : GasCounter ActionCosts ExtCosts :=
  { self with profile := self.profile.addActionCost action value }

def burnAndRecordHost (self : GasCounter ActionCosts ExtCosts) (cost : ExtCosts) (useGas : Gas) :
    Except HostError Unit × GasCounter ActionCosts ExtCosts :=
  let oldBurntGas := self.fastCounter.burntGas
  let (burnGasResult, self) := self.burnGas useGas
  (burnGasResult,
    self.updateProfileHost cost (self.fastCounter.burntGas.saturatingSub oldBurntGas))

def payPer (self : GasCounter ActionCosts ExtCosts) (cost : ExtCosts) (num : UInt64) :
    Except HostError Unit × GasCounter ActionCosts ExtCosts :=
  match num.checkedMul (self.extCostsConfig.costs cost) with
  | none => (.error .integerOverflow, self)
  | some useGas => self.burnAndRecordHost cost useGas

def payBase (self : GasCounter ActionCosts ExtCosts) (cost : ExtCosts) :
    Except HostError Unit × GasCounter ActionCosts ExtCosts :=
  self.burnAndRecordHost cost (self.extCostsConfig.costs cost)

def payActionAccumulated (self : GasCounter ActionCosts ExtCosts) (burnGas useGas : Gas)
    (action : ActionCosts) : Option (Except HostError Unit × GasCounter ActionCosts ExtCosts) :=
  let oldBurntGas := self.fastCounter.burntGas
  (self.deductGas burnGas useGas).map fun (deductGasResult, self) =>
    (deductGasResult,
      self.updateProfileAction action (self.fastCounter.burntGas.saturatingSub oldBurntGas))

def prepayGas (self : GasCounter ActionCosts ExtCosts) (useGas : Gas) :
    Option (Except HostError Unit × GasCounter ActionCosts ExtCosts) :=
  self.deductGas 0 useGas

def usedGas (self : GasCounter ActionCosts ExtCosts) : Gas :=
  self.promisesGas + self.fastCounter.burntGas

def unusedGas (self : GasCounter ActionCosts ExtCosts) : Gas :=
  self.prepaidGas - self.usedGas

end GasCounter

inductive GasCall (ActionCosts ExtCosts : Type) where
  | burnGas (gas : Gas)
  | payBase (cost : ExtCosts)
  | payPer (cost : ExtCosts) (num : UInt64)
  | deductGas (gasBurnt gasUsed : Gas)
  | payActionAccumulated (burnGas useGas : Gas) (action : ActionCosts)
  | prepayGas (useGas : Gas)

def GasCall.run : GasCall ActionCosts ExtCosts → GasCounter ActionCosts ExtCosts →
    Option (Except HostError Unit × GasCounter ActionCosts ExtCosts)
  | .burnGas gas, c => some (c.burnGas gas)
  | .payBase cost, c => some (c.payBase cost)
  | .payPer cost num, c => some (c.payPer cost num)
  | .deductGas burnt used, c => c.deductGas burnt used
  | .payActionAccumulated burn use action, c => c.payActionAccumulated burn use action
  | .prepayGas use, c => c.prepayGas use

def GasCall.OkStep (c c' : GasCounter ActionCosts ExtCosts) : Prop :=
  ∃ call : GasCall ActionCosts ExtCosts, call.run c = some (.ok (), c')

/-- A call, whatever it returned. -/
def GasCall.Step (c c' : GasCounter ActionCosts ExtCosts) : Prop :=
  ∃ (call : GasCall ActionCosts ExtCosts) (r : Except HostError Unit), call.run c = some (r, c')

end VmLogic
end Nearcore
