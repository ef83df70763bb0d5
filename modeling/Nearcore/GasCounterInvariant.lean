import Nearcore.GasCounter
import Nearcore.ListFacts

/-!
# Invariants of the gas counter over every sequence of calls

Two invariants carry the argument.  `Bounded` holds after every call, also
after one that returned `Err`: the burnt gas stays within both limits, the
burnt and promised gas within the prepaid gas, and the profile's entries
sum to at most the burnt gas.  `Synced` adds that the cached `gas_limit`
of the fast counter equals the limit it stands for; it holds after every
call that returned `Ok`.  Every call of a `Synced` counter gives a
`Bounded` counter with at least as much burnt gas, and a `Synced` one when
it returns `Ok`.
-/

set_option linter.unusedSectionVars false

namespace Nearcore
namespace VmLogic

variable {ActionCosts ExtCosts : Type} [FinEnum ActionCosts] [FinEnum ExtCosts]

namespace ProfileDataV3

/-- The unclamped sum of the host-function entries. -/
def hostTotal (p : ProfileDataV3 ActionCosts ExtCosts) : ℕ :=
  ((FinEnum.toList ExtCosts).map fun ext => (p.wasmExtProfile ext).toNat).sum

/-- The unclamped sum of the action entries. -/
def actionTotal (p : ProfileDataV3 ActionCosts ExtCosts) : ℕ :=
  ((FinEnum.toList ActionCosts).map fun action => (p.actionsProfile action).toNat).sum

theorem toNat_hostGas (p : ProfileDataV3 ActionCosts ExtCosts) :
    p.hostGas.toNat = min p.hostTotal (2 ^ 64 - 1) := by
  simp [hostGas, hostTotal, UInt64.toNat_foldl_saturatingAdd, Function.comp_def]

theorem toNat_actionGas (p : ProfileDataV3 ActionCosts ExtCosts) :
    p.actionGas.toNat = min p.actionTotal (2 ^ 64 - 1) := by
  simp [actionGas, actionTotal, UInt64.toNat_foldl_saturatingAdd, Function.comp_def]

theorem hostTotal_addExtCost_le
    (p : ProfileDataV3 ActionCosts ExtCosts) (ext : ExtCosts) (value : Gas) :
    (p.addExtCost ext value).hostTotal ≤ p.hostTotal + value.toNat := by
  have hcomp : (fun e => ((p.addExtCost ext value).wasmExtProfile e).toNat) =
      Function.update (fun e => (p.wasmExtProfile e).toNat) ext
        ((p.wasmExtProfile ext).saturatingAdd value).toNat := by
    funext e
    by_cases he : e = ext
    · subst he
      simp [addExtCost]
    · simp [addExtCost, he]
  unfold hostTotal
  rw [hcomp]
  apply List.sum_map_update_le _ FinEnum.nodup_toList
  rw [UInt64.toNat_saturatingAdd]
  omega

theorem actionTotal_addActionCost_le
    (p : ProfileDataV3 ActionCosts ExtCosts) (action : ActionCosts) (value : Gas) :
    (p.addActionCost action value).actionTotal ≤ p.actionTotal + value.toNat := by
  have hcomp : (fun a => ((p.addActionCost action value).actionsProfile a).toNat) =
      Function.update (fun a => (p.actionsProfile a).toNat) action
        ((p.actionsProfile action).saturatingAdd value).toNat := by
    funext a
    by_cases ha : a = action
    · subst ha
      simp [addActionCost]
    · simp [addActionCost, ha]
  unfold actionTotal
  rw [hcomp]
  apply List.sum_map_update_le _ FinEnum.nodup_toList
  rw [UInt64.toNat_saturatingAdd]
  omega

@[simp] theorem hostTotal_addActionCost
    (p : ProfileDataV3 ActionCosts ExtCosts) (action : ActionCosts) (value : Gas) :
    (p.addActionCost action value).hostTotal = p.hostTotal := rfl

@[simp] theorem actionTotal_addExtCost
    (p : ProfileDataV3 ActionCosts ExtCosts) (ext : ExtCosts) (value : Gas) :
    (p.addExtCost ext value).actionTotal = p.actionTotal := rfl

@[simp] theorem hostTotal_new : (new : ProfileDataV3 ActionCosts ExtCosts).hostTotal = 0 := by
  simp [hostTotal, new]

@[simp] theorem actionTotal_new : (new : ProfileDataV3 ActionCosts ExtCosts).actionTotal = 0 := by
  simp [actionTotal, new]

/-- Once the entries sum to at most the burnt gas, the WASM share computed
from it makes the three parts add up to the burnt gas exactly. -/
theorem computeWasmInstructionCost_sum
    (p : ProfileDataV3 ActionCosts ExtCosts) (burnt : Gas)
    (hle : p.hostTotal + p.actionTotal ≤ burnt.toNat) :
    p.hostGas.toNat + p.actionGas.toNat + (p.computeWasmInstructionCost burnt).wasmGas.toNat =
      burnt.toNat := by
  have hlt := UInt64.toNat_lt burnt
  have hhost : p.hostGas.toNat = p.hostTotal := by rw [toNat_hostGas]; omega
  have haction : p.actionGas.toNat = p.actionTotal := by rw [toNat_actionGas]; omega
  simp only [computeWasmInstructionCost, UInt64.toNat_saturatingSub]
  omega

end ProfileDataV3

namespace GasCounter

variable {c : GasCounter ActionCosts ExtCosts}

/-- What holds after every call, including a last one that failed. -/
structure Bounded (c : GasCounter ActionCosts ExtCosts) : Prop where
  burnt_le_max : c.fastCounter.burntGas.toNat ≤ c.maxGasBurnt.toNat
  used_le_prepaid : c.fastCounter.burntGas.toNat + c.promisesGas.toNat ≤ c.prepaidGas.toNat
  profile_le_burnt :
    c.profile.hostTotal + c.profile.actionTotal ≤ c.fastCounter.burntGas.toNat

/-- What holds after every call that returned `Ok`. -/
structure Synced (c : GasCounter ActionCosts ExtCosts) : Prop extends Bounded c where
  gasLimit_eq : c.fastCounter.gasLimit = min c.maxGasBurnt (c.prepaidGas - c.promisesGas)
  not_view : c.isView = false

theorem Synced.toNat_gasLimit (hc : Synced c) :
    c.fastCounter.gasLimit.toNat =
      min c.maxGasBurnt.toNat (c.prepaidGas.toNat - c.promisesGas.toNat) := by
  have hle : c.promisesGas ≤ c.prepaidGas := by
    rw [UInt64.le_iff_toNat_le]
    have := hc.used_le_prepaid
    omega
  rw [hc.gasLimit_eq, UInt64.toNat_min, UInt64.toNat_sub_of_le _ _ hle]

@[simp] theorem withBurntGas_burntGas (c : GasCounter ActionCosts ExtCosts) (g : Gas) :
    (c.withBurntGas g).fastCounter.burntGas = g := rfl

@[simp] theorem withBurntGas_gasLimit (c : GasCounter ActionCosts ExtCosts) (g : Gas) :
    (c.withBurntGas g).fastCounter.gasLimit = c.fastCounter.gasLimit := rfl

theorem synced_new (extCostsConfig : ExtCostsConfig ExtCosts) (maxGasBurnt : Gas)
    (opcodeCost : UInt32) (prepaidGas : Gas) :
    Synced (new extCostsConfig maxGasBurnt opcodeCost prepaidGas false :
      GasCounter ActionCosts ExtCosts) where
  burnt_le_max := by simp [new]
  used_le_prepaid := by simp [new]
  profile_le_burnt := by simp [new]
  gasLimit_eq := by simp [new]
  not_view := rfl

/-! ## The limit check's error path -/

/-- `process_gas_limit` from a bounded counter, with a new burnt amount
that is at least the current one, keeps the counter bounded and does not
lower the burnt gas. -/
theorem processGasLimit_bounded (hc : Bounded c) (newBurntGas newUsedGas : Gas)
    (hnew : c.fastCounter.burntGas.toNat ≤ newBurntGas.toNat) :
    Bounded (c.processGasLimit newBurntGas newUsedGas).2 ∧
      c.fastCounter.burntGas.toNat ≤
        (c.processGasLimit newBurntGas newUsedGas).2.fastCounter.burntGas.toNat ∧
      (c.processGasLimit newBurntGas newUsedGas).2.profile = c.profile := by
  have hmax := hc.burnt_le_max
  have hused := hc.used_le_prepaid
  have hprofile := hc.profile_le_burnt
  refine ⟨⟨?_, ?_, ?_⟩, ?_, rfl⟩ <;>
    simp only [processGasLimit, withBurntGas, UInt64.toNat_min,
      UInt64.toNat_saturatingSub] <;> omega

/-! ## One call at a time -/

theorem burnGas_spec (hc : Synced c) (g : Gas) :
    ((c.burnGas g).1 = .ok () → Synced (c.burnGas g).2) ∧
      Bounded (c.burnGas g).2 ∧
      c.fastCounter.burntGas.toNat ≤ (c.burnGas g).2.fastCounter.burntGas.toNat ∧
      (c.burnGas g).2.profile = c.profile := by
  have hlimit := hc.toNat_gasLimit
  have hmax := hc.burnt_le_max
  have hused := hc.used_le_prepaid
  have hprofile := hc.profile_le_burnt
  unfold burnGas
  cases hadd : c.fastCounter.burntGas.checkedAdd g with
  | none =>
      exact ⟨(by rintro ⟨⟩), hc.toBounded, le_rfl, rfl⟩
  | some newBurntGas =>
      obtain ⟨-, hsum⟩ := UInt64.checkedAdd_eq_some_iff.mp hadd
      by_cases hfit : newBurntGas ≤ c.fastCounter.gasLimit
      · have hfit' := UInt64.le_iff_toNat_le.mp hfit
        have hbounded : Bounded (c.withBurntGas newBurntGas) := by
          constructor <;> simp [withBurntGas] <;> omega
        simp only [hfit, if_true]
        refine ⟨fun _ => ?_, hbounded, by simp; omega, rfl⟩
        exact { hbounded with
          gasLimit_eq := hc.gasLimit_eq
          not_view := hc.not_view }
      · simp only [hfit, if_false]
        obtain ⟨hb, hle, hp⟩ :=
          processGasLimit_bounded hc.toBounded newBurntGas (newBurntGas + c.promisesGas)
            (by omega : c.fastCounter.burntGas.toNat ≤ newBurntGas.toNat)
        exact ⟨(by rintro ⟨⟩), hb, hle, hp⟩

theorem deductGas_spec (hc : Synced c) {gasBurnt gasUsed : Gas}
    {r : Except HostError Unit} {c' : GasCounter ActionCosts ExtCosts}
    (h : c.deductGas gasBurnt gasUsed = some (r, c')) :
    (r = .ok () → Synced c') ∧ Bounded c' ∧
      c.fastCounter.burntGas.toNat ≤ c'.fastCounter.burntGas.toNat ∧ c'.profile = c.profile := by
  have hlimit := hc.toNat_gasLimit
  have hmax := hc.burnt_le_max
  have hused := hc.used_le_prepaid
  have hprofile := hc.profile_le_burnt
  unfold deductGas at h
  split at h
  case isFalse => cases h
  case isTrue hle =>
    have hpromises : (gasUsed - gasBurnt).toNat = gasUsed.toNat - gasBurnt.toNat :=
      UInt64.toNat_sub_of_le _ _ hle
    have hle' := UInt64.le_iff_toNat_le.mp hle
    simp only [Option.some.injEq] at h
    split at h
    case h_1 => cases h; exact ⟨(by rintro ⟨⟩), hc.toBounded, le_rfl, rfl⟩
    case h_2 newPromisesGas hnewPromises =>
      obtain ⟨-, hnp⟩ := UInt64.checkedAdd_eq_some_iff.mp hnewPromises
      split at h
      case h_1 => cases h; exact ⟨(by rintro ⟨⟩), hc.toBounded, le_rfl, rfl⟩
      case h_2 newBurntGas hnewBurnt =>
        obtain ⟨-, hnb⟩ := UInt64.checkedAdd_eq_some_iff.mp hnewBurnt
        split at h
        case h_1 => cases h; exact ⟨(by rintro ⟨⟩), hc.toBounded, le_rfl, rfl⟩
        case h_2 newUsedGas hnewUsed =>
          obtain ⟨-, hnu⟩ := UInt64.checkedAdd_eq_some_iff.mp hnewUsed
          split at h
          case isTrue hfit =>
            obtain ⟨hfitBurnt, hfitUsed⟩ := hfit
            have hfitBurnt' := UInt64.le_iff_toNat_le.mp hfitBurnt
            have hfitUsed' := UInt64.le_iff_toNat_le.mp hfitUsed
            cases h
            have hbounded : Bounded
                { c with
                  fastCounter := { c.fastCounter with
                    gasLimit := if gasUsed - gasBurnt ≠ 0 ∧ c.isView = false then
                        min c.maxGasBurnt (c.prepaidGas - newPromisesGas)
                      else c.fastCounter.gasLimit
                    burntGas := newBurntGas }
                  promisesGas := newPromisesGas } := by
              constructor <;> simp only <;> omega
            refine ⟨fun _ => { hbounded with gasLimit_eq := ?_, not_view := hc.not_view }, hbounded,
              by simp only; omega, rfl⟩
            simp only [hc.not_view, and_true]
            split
            case isTrue => rfl
            case isFalse hzero =>
              -- no promise gas was added, so the cached limit is still the right one
              have hzero' : (gasUsed - gasBurnt).toNat = 0 := by
                simp only [ne_eq, Decidable.not_not] at hzero
                rw [hzero, UInt64.toNat_zero]
              have hsame : newPromisesGas = c.promisesGas := by
                apply UInt64.toNat_inj.mp
                omega
              rw [hsame]
              exact hc.gasLimit_eq
          case isFalse =>
            obtain ⟨hb, hmono, hp⟩ :=
              processGasLimit_bounded hc.toBounded newBurntGas newUsedGas
                (by omega : c.fastCounter.burntGas.toNat ≤ newBurntGas.toNat)
            cases h
            exact ⟨(by rintro ⟨⟩), hb, hmono, hp⟩

/-- Recording in the profile the growth of the burnt gas keeps the
profile within the burnt gas. -/
theorem bounded_updateProfileHost {c₀ : GasCounter ActionCosts ExtCosts} (hc : Bounded c)
    (hprofile : c.profile = c₀.profile) (hc₀ : Bounded c₀)
    (hmono : c₀.fastCounter.burntGas.toNat ≤ c.fastCounter.burntGas.toNat) (cost : ExtCosts) :
    Bounded (c.updateProfileHost cost
      (c.fastCounter.burntGas.saturatingSub c₀.fastCounter.burntGas)) := by
  have hle := ProfileDataV3.hostTotal_addExtCost_le c.profile cost
    (c.fastCounter.burntGas.saturatingSub c₀.fastCounter.burntGas)
  have h₀ := hc₀.profile_le_burnt
  rw [UInt64.toNat_saturatingSub] at hle
  exact ⟨hc.burnt_le_max, hc.used_le_prepaid, by
    simp only [updateProfileHost, ProfileDataV3.actionTotal_addExtCost]
    rw [hprofile] at hle ⊢
    omega⟩

theorem bounded_updateProfileAction {c₀ : GasCounter ActionCosts ExtCosts} (hc : Bounded c)
    (hprofile : c.profile = c₀.profile) (hc₀ : Bounded c₀)
    (hmono : c₀.fastCounter.burntGas.toNat ≤ c.fastCounter.burntGas.toNat)
    (action : ActionCosts) :
    Bounded (c.updateProfileAction action
      (c.fastCounter.burntGas.saturatingSub c₀.fastCounter.burntGas)) := by
  have hle := ProfileDataV3.actionTotal_addActionCost_le c.profile action
    (c.fastCounter.burntGas.saturatingSub c₀.fastCounter.burntGas)
  have h₀ := hc₀.profile_le_burnt
  rw [UInt64.toNat_saturatingSub] at hle
  exact ⟨hc.burnt_le_max, hc.used_le_prepaid, by
    simp only [updateProfileAction, ProfileDataV3.hostTotal_addActionCost]
    rw [hprofile] at hle ⊢
    omega⟩

/-- The specification every call satisfies from a synced counter. -/
def CallSpec (c : GasCounter ActionCosts ExtCosts) (r : Except HostError Unit)
    (c' : GasCounter ActionCosts ExtCosts) : Prop :=
  (r = .ok () → Synced c') ∧ Bounded c' ∧
    c.fastCounter.burntGas.toNat ≤ c'.fastCounter.burntGas.toNat

theorem burnAndRecordHost_spec (hc : Synced c) (cost : ExtCosts) (useGas : Gas) :
    CallSpec c (c.burnAndRecordHost cost useGas).1 (c.burnAndRecordHost cost useGas).2 := by
  obtain ⟨hok, hb, hmono, hp⟩ := burnGas_spec hc useGas
  have hrecord := bounded_updateProfileHost hb hp hc.toBounded hmono cost
  refine ⟨fun hr => ?_, hrecord, hmono⟩
  have hs := hok hr
  exact { hrecord with gasLimit_eq := hs.gasLimit_eq, not_view := hs.not_view }

theorem payPer_spec (hc : Synced c) (cost : ExtCosts) (num : UInt64) :
    CallSpec c (c.payPer cost num).1 (c.payPer cost num).2 := by
  unfold payPer
  split
  case h_1 => exact ⟨fun _ => hc, hc.toBounded, le_rfl⟩
  case h_2 useGas _ => exact burnAndRecordHost_spec hc cost useGas

theorem payBase_spec (hc : Synced c) (cost : ExtCosts) :
    CallSpec c (c.payBase cost).1 (c.payBase cost).2 :=
  burnAndRecordHost_spec hc cost _

theorem payActionAccumulated_spec (hc : Synced c) {burnGas useGas : Gas} {action : ActionCosts}
    {r : Except HostError Unit} {c' : GasCounter ActionCosts ExtCosts}
    (h : c.payActionAccumulated burnGas useGas action = some (r, c')) : CallSpec c r c' := by
  unfold payActionAccumulated at h
  cases hdeduct : c.deductGas burnGas useGas with
  | none => rw [hdeduct] at h; cases h
  | some result =>
      obtain ⟨r₀, c₀⟩ := result
      rw [hdeduct] at h
      simp only [Option.map_some, Option.some.injEq, Prod.mk.injEq] at h
      obtain ⟨rfl, rfl⟩ := h
      obtain ⟨hok, hb, hmono, hp⟩ := deductGas_spec hc hdeduct
      have hrecord := bounded_updateProfileAction hb hp hc.toBounded hmono action
      refine ⟨fun hr => ?_, hrecord, hmono⟩
      have hs := hok hr
      exact { hrecord with gasLimit_eq := hs.gasLimit_eq, not_view := hs.not_view }

theorem deductGas_callSpec (hc : Synced c) {gasBurnt gasUsed : Gas}
    {r : Except HostError Unit} {c' : GasCounter ActionCosts ExtCosts}
    (h : c.deductGas gasBurnt gasUsed = some (r, c')) : CallSpec c r c' := by
  obtain ⟨hok, hb, hmono, -⟩ := deductGas_spec hc h
  exact ⟨hok, hb, hmono⟩

/-- With no promise gas, the full check of `deduct_gas` sees the promised
gas unchanged. -/
theorem checkedAdd_promisesGas_zero (c : GasCounter ActionCosts ExtCosts) :
    c.promisesGas.checkedAdd (0 : Gas) = some c.promisesGas := by
  have hlt := UInt64.toNat_lt c.promisesGas
  unfold UInt64.checkedAdd
  rw [if_pos (by simpa using hlt)]
  simp

/-- On a synced counter the cached limit decides as the full check does:
`burn_gas(g)` returns `Ok` exactly when `deduct_gas(g, g)` does, and both
then leave the same counter. -/
theorem burnGas_ok_iff_deductGas_ok (hc : Synced c) (g : Gas)
    (c' : GasCounter ActionCosts ExtCosts) :
    c.burnGas g = (.ok (), c') ↔ c.deductGas g g = some (.ok (), c') := by
  have hlimit := hc.toNat_gasLimit
  have hused := hc.used_le_prepaid
  have hprepaid := UInt64.toNat_lt c.prepaidGas
  have hgg : g ≤ g := UInt64.le_iff_toNat_le.mpr le_rfl
  unfold burnGas deductGas
  simp only [hgg, if_true, UInt64.sub_self, checkedAdd_promisesGas_zero, ne_eq,
    not_true_eq_false, false_and, if_false, Option.some.injEq]
  cases hadd : c.fastCounter.burntGas.checkedAdd g with
  | none => simp
  | some newBurntGas =>
      simp only
      by_cases hfit : newBurntGas ≤ c.fastCounter.gasLimit
      · have hfit' := UInt64.le_iff_toNat_le.mp hfit
        have hused' : newBurntGas.toNat + c.promisesGas.toNat < 2 ^ 64 := by omega
        have hsum : newBurntGas.checkedAdd c.promisesGas =
            some (newBurntGas + c.promisesGas) := by
          unfold UInt64.checkedAdd
          rw [if_pos hused']
        have hcheck : newBurntGas ≤ c.maxGasBurnt ∧
            newBurntGas + c.promisesGas ≤ c.prepaidGas := by
          rw [UInt64.le_iff_toNat_le, UInt64.le_iff_toNat_le, UInt64.toNat_add,
            Nat.mod_eq_of_lt hused']
          omega
        simp only [hfit, if_true, hsum, hcheck, and_self]
        rfl
      · have hfit' : ¬ newBurntGas.toNat ≤ c.fastCounter.gasLimit.toNat :=
          fun h => hfit (UInt64.le_iff_toNat_le.mpr h)
        simp only [hfit, if_false]
        constructor
        · rintro ⟨⟩
        · intro h
          split at h
          · cases h
          · split at h
            · next hcheck =>
                obtain ⟨hmax, hprep⟩ := hcheck
                rw [UInt64.le_iff_toNat_le] at hmax hprep
                rename_i newUsedGas hnewUsed
                obtain ⟨-, hnu⟩ := UInt64.checkedAdd_eq_some_iff.mp hnewUsed
                omega
            · cases h

/-- What holds of a counter after every call: the burnt gas is
within both limits, burnt and promised gas within the prepaid gas (so that
`used_gas` does not overflow and `unused_gas` does not underflow), and the
profile's explicit entries leave a WASM share that makes the parts add up
to the burnt gas. -/
def Accounted (c : GasCounter ActionCosts ExtCosts) : Prop :=
  c.fastCounter.burntGas ≤ min c.maxGasBurnt c.prepaidGas ∧
    c.usedGas.toNat = c.promisesGas.toNat + c.fastCounter.burntGas.toNat ∧
    c.usedGas ≤ c.prepaidGas ∧
    c.unusedGas.toNat = c.prepaidGas.toNat - c.usedGas.toNat ∧
    c.profile.hostGas.toNat + c.profile.actionGas.toNat ≤ c.fastCounter.burntGas.toNat ∧
    c.profile.hostGas.toNat + c.profile.actionGas.toNat +
        (c.profile.computeWasmInstructionCost c.fastCounter.burntGas).wasmGas.toNat =
      c.fastCounter.burntGas.toNat

theorem Bounded.accounted (hc : Bounded c) : Accounted c := by
  have hmax := hc.burnt_le_max
  have hused := hc.used_le_prepaid
  have hprofile := hc.profile_le_burnt
  have hprepaid := UInt64.toNat_lt c.prepaidGas
  have hburnt := UInt64.toNat_lt c.fastCounter.burntGas
  have hhost : c.profile.hostGas.toNat = c.profile.hostTotal := by
    rw [ProfileDataV3.toNat_hostGas]; omega
  have haction : c.profile.actionGas.toNat = c.profile.actionTotal := by
    rw [ProfileDataV3.toNat_actionGas]; omega
  have husedGas : c.usedGas.toNat = c.promisesGas.toNat + c.fastCounter.burntGas.toNat := by
    rw [usedGas, UInt64.toNat_add, Nat.mod_eq_of_lt (by omega)]
  have husedLe : c.usedGas ≤ c.prepaidGas := by
    rw [UInt64.le_iff_toNat_le]; omega
  refine ⟨?_, husedGas, husedLe, UInt64.toNat_sub_of_le _ _ husedLe, by omega, ?_⟩
  · rw [UInt64.le_iff_toNat_le, UInt64.toNat_min]; omega
  · exact ProfileDataV3.computeWasmInstructionCost_sum c.profile _ (by omega)

end GasCounter

namespace GasCall

open GasCounter

variable {c : GasCounter ActionCosts ExtCosts}

/-- Every call of a synced counter gives a bounded counter with no less
burnt gas, and a synced one when it returns `Ok`. -/
theorem run_spec (hc : Synced c) {call : GasCall ActionCosts ExtCosts}
    {r : Except HostError Unit} {c' : GasCounter ActionCosts ExtCosts}
    (h : call.run c = some (r, c')) : CallSpec c r c' := by
  cases call with
  | burnGas gas =>
      simp only [run, Option.some.injEq] at h
      obtain ⟨hok, hb, hmono, -⟩ := burnGas_spec hc gas
      rw [h] at hok hb hmono
      exact ⟨hok, hb, hmono⟩
  | payBase cost =>
      simp only [run, Option.some.injEq] at h
      have := payBase_spec hc cost
      rwa [h] at this
  | payPer cost num =>
      simp only [run, Option.some.injEq] at h
      have := payPer_spec hc cost num
      rwa [h] at this
  | deductGas burnt used =>
      simp only [run] at h
      exact deductGas_callSpec hc h
  | payActionAccumulated burn use action =>
      simp only [run] at h
      exact payActionAccumulated_spec hc h
  | prepayGas use =>
      simp only [run] at h
      exact deductGas_callSpec hc h

/-- Every counter reached from a synced one by calls that returned `Ok` is
synced. -/
theorem synced_of_okSteps {c₀ c : GasCounter ActionCosts ExtCosts} (hc₀ : Synced c₀)
    (hrun : Relation.ReflTransGen OkStep c₀ c) : Synced c := by
  induction hrun with
  | refl => exact hc₀
  | tail _ hstep ih =>
      obtain ⟨call, hcall⟩ := hstep
      exact (run_spec ih hcall).1 rfl

/-- A counter reached from a synced one by calls that returned `Ok` and at most
one more call, as when a failed charge aborts the function, is bounded. -/
theorem bounded_of_okSteps_step {c₀ c₁ c : GasCounter ActionCosts ExtCosts} (hc₀ : Synced c₀)
    (hrun : Relation.ReflTransGen OkStep c₀ c₁) (hlast : Relation.ReflGen Step c₁ c) :
    Bounded c := by
  have hc₁ := synced_of_okSteps hc₀ hrun
  cases hlast with
  | refl => exact hc₁.toBounded
  | single hstep =>
      obtain ⟨call, r, hcall⟩ := hstep
      exact (run_spec hc₁ hcall).2.1

/-- The gas counter over every sequence of calls.  Take a counter built by
`GasCounter::new` for a call that is not a view, and any counter `c`
reached from it by calls that all returned `Ok`.  Then `c` is accounted,
its cached `gas_limit` is `min(max_gas_burnt, prepaid_gas - promises_gas)`,
so that `burn_gas(g)` succeeds exactly when `deduct_gas(g, g)` does and
with the same result; and one more call of any kind, whatever it returns,
gives an accounted counter whose burnt gas is no smaller. -/
theorem reachable_gasCounter_invariants (extCostsConfig : ExtCostsConfig ExtCosts)
    (maxGasBurnt : Gas) (opcodeCost : UInt32) (prepaidGas : Gas)
    {c : GasCounter ActionCosts ExtCosts}
    (hrun : Relation.ReflTransGen OkStep
      (GasCounter.new extCostsConfig maxGasBurnt opcodeCost prepaidGas false) c) :
    Accounted c ∧
      c.fastCounter.gasLimit = min c.maxGasBurnt (c.prepaidGas - c.promisesGas) ∧
      (∀ (g : Gas) (c' : GasCounter ActionCosts ExtCosts),
        c.burnGas g = (.ok (), c') ↔ c.deductGas g g = some (.ok (), c')) ∧
      ∀ (call : GasCall ActionCosts ExtCosts) (r : Except HostError Unit)
        (c' : GasCounter ActionCosts ExtCosts), call.run c = some (r, c') →
          Accounted c' ∧ c.fastCounter.burntGas ≤ c'.fastCounter.burntGas := by
  have hc := synced_of_okSteps (synced_new extCostsConfig maxGasBurnt opcodeCost prepaidGas) hrun
  refine ⟨hc.toBounded.accounted, hc.gasLimit_eq, burnGas_ok_iff_deductGas_ok hc, ?_⟩
  intro call r c' hcall
  obtain ⟨-, hb, hmono⟩ := run_spec hc hcall
  exact ⟨hb.accounted, UInt64.le_iff_toNat_le.mpr hmono⟩

theorem reachable_gasCounter_invariants_afterBurn :
    Relation.ReflTransGen OkStep
        (GasCounter.new ⟨fun _ => 3⟩ 10 1 20 false : GasCounter Unit Unit)
        ((GasCounter.new ⟨fun _ => 3⟩ 10 1 20 false : GasCounter Unit Unit).burnGas 5).2 ∧
      Accounted
        ((GasCounter.new ⟨fun _ => 3⟩ 10 1 20 false : GasCounter Unit Unit).burnGas 5).2 := by
  have hrun : Relation.ReflTransGen OkStep
      (GasCounter.new ⟨fun _ => 3⟩ 10 1 20 false : GasCounter Unit Unit)
      ((GasCounter.new ⟨fun _ => 3⟩ 10 1 20 false : GasCounter Unit Unit).burnGas 5).2 :=
    Relation.ReflTransGen.single ⟨.burnGas 5, rfl⟩
  exact ⟨hrun, (reachable_gasCounter_invariants ⟨fun _ => 3⟩ 10 1 20 hrun).1⟩

end GasCall

end VmLogic
end Nearcore
