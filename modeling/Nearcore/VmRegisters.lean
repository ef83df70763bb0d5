import Nearcore.GasCounter
import Nearcore.BTreeMap

/-!
# Registers of a contract call

`Registers` of `near-vm-logic` (`vmstate.rs`): a map from register ids to
byte strings with a running `total_memory_usage`, which counts every register
as its length plus eight.  `Registers::set` charges gas, then
`check_set_register` checks three limits of `VMLimitConfig` in a fixed order
(the size of the value, the number of registers, the total usage) and updates
the usage; only then does `set` write the value through the `HashMap` entry.

The `HashMap` is a `BTreeMap` here, and register ids, which are `u64` in the
source and only ever used as keys, are natural numbers.  `set` writes through
the entry that `check_set_register` returns; the model inserts the value into
the map that `check_set_register` left unchanged.  The two `ExtCosts` that
`set` charges are parameters, as `ExtCosts` is in the gas counter.

Over every sequence of sets from `Registers::default()`, the usage is the
sum over the registers, within the memory limit, the number of registers and
their lengths stay within their limits, the `checked_sub(..).unwrap()` of
`check_set_register` never panics, and a set that fails leaves the registers
as they were (`reachable_registers_invariant`).
-/

set_option linter.unusedSectionVars false

namespace Nearcore
namespace VmLogic

/-- The limits of `VMLimitConfig` on registers. -/
structure VMLimitConfig where
  maxRegisterSize : UInt64
  maxNumberRegisters : UInt64
  registersMemoryLimit : UInt64

structure Registers where
  registers : BTreeMap ℕ (List UInt8)
  totalMemoryUsage : UInt64

namespace Registers

def default : Registers := ⟨.empty, 0⟩

/-- `calc_usage`, `len + size_of::<u64>()`; `none` where the addition
overflows and panics. -/
def calcUsage (len : UInt64) : Option UInt64 := len.checkedAdd 8

/-- `old_mem_usage`: the usage of the register a set replaces, zero for a new
one. -/
def oldMemUsage (self : Registers) (registerId : ℕ) : Option UInt64 :=
  match self.registers.get? registerId with
  | some data => calcUsage (UInt64.ofNat data.length)
  | none => some 0

/-- `check_set_register`: the registers with the new usage, the map not yet
written.  `none` where `checked_sub(..).unwrap()` or `calc_usage` panics. -/
def checkSetRegister (self : Registers) (config : VMLimitConfig) (registerId : ℕ)
    (dataLen : UInt64) : Option (Except HostError Registers) :=
  if dataLen > config.maxRegisterSize then some (.error .memoryAccessViolation)
  -- replacing a register at the limit fails too, as the source says
  else if config.maxNumberRegisters.toNat ≤ self.registers.size then
    some (.error .memoryAccessViolation)
  else do
    let oldMemUsage ← self.oldMemUsage registerId
    let remaining ← self.totalMemoryUsage.checkedSub oldMemUsage
    let newMemUsage ← calcUsage dataLen
    match remaining.checkedAdd newMemUsage with
    | none => pure (.error .memoryAccessViolation)
    | some usage =>
        if usage > config.registersMemoryLimit then pure (.error .memoryAccessViolation)
        else pure (.ok { self with totalMemoryUsage := usage })

variable {ActionCosts ExtCosts : Type} [FinEnum ActionCosts] [FinEnum ExtCosts]
variable (writeRegisterBase writeRegisterByte : ExtCosts)

/-- `Registers::set`.  The length of a slice converts to `u64` unless it does
not fit. -/
def set (self : Registers) (gasCounter : GasCounter ActionCosts ExtCosts)
    (config : VMLimitConfig) (registerId : ℕ) (data : List UInt8) :
    Option (Except HostError Unit × GasCounter ActionCosts ExtCosts × Registers) :=
  if data.length < 2 ^ 64 then
    let dataLen := UInt64.ofNat data.length
    match gasCounter.payBase writeRegisterBase with
    | (.error e, gasCounter) => some (.error e, gasCounter, self)
    | (.ok (), gasCounter) =>
      match gasCounter.payPer writeRegisterByte dataLen with
      | (.error e, gasCounter) => some (.error e, gasCounter, self)
      | (.ok (), gasCounter) =>
        (self.checkSetRegister config registerId dataLen).map fun
          | .error e => (.error e, gasCounter, self)
          | .ok checked =>
              (.ok (), gasCounter,
                { checked with registers := checked.registers.insert registerId data })
  else some (.error .memoryAccessViolation, gasCounter, self)

variable (ActionCosts) in
/-- One set, whatever it returns. -/
def SetStep (config : VMLimitConfig) (self self' : Registers) : Prop :=
  ∃ (gasCounter gasCounter' : GasCounter ActionCosts ExtCosts) (registerId : ℕ)
    (data : List UInt8) (result : Except HostError Unit),
    self.set writeRegisterBase writeRegisterByte gasCounter config registerId data =
      some (result, gasCounter', self')

/-! ## The usage of the registers -/


/-- The usage registers should have: each one's length plus eight. -/
def usageOf (registers : BTreeMap ℕ (List UInt8)) : ℕ :=
  registers.sumBy fun _ data => data.length + 8

theorem usageOf_erase_of_get?_eq_some {registers : BTreeMap ℕ (List UInt8)} {registerId : ℕ}
    {data : List UInt8} (hget : registers.get? registerId = some data) :
    usageOf (registers.erase registerId) + (data.length + 8) = usageOf registers :=
  BTreeMap.sumBy_erase_of_get?_eq_some _ hget

theorem usageOf_erase_of_get?_eq_none {registers : BTreeMap ℕ (List UInt8)} {registerId : ℕ}
    (hget : registers.get? registerId = none) :
    usageOf (registers.erase registerId) = usageOf registers := by
  simp only [usageOf, BTreeMap.sumBy, BTreeMap.erase_of_get?_eq_none hget]

theorem usageOf_insert (registers : BTreeMap ℕ (List UInt8)) (registerId : ℕ)
    (data : List UInt8) :
    usageOf (registers.insert registerId data) =
      usageOf (registers.erase registerId) + (data.length + 8) := by
  simp only [usageOf, BTreeMap.sumBy, ((BTreeMap.entries_perm_insert_erase _ _ _).map _).sum_eq,
    List.map_cons, List.sum_cons]
  omega

/-- What every set keeps. -/
structure Invariant (config : VMLimitConfig) (regs : Registers) : Prop where
  totalMemoryUsage_eq : regs.totalMemoryUsage.toNat = usageOf regs.registers
  totalMemoryUsage_le : regs.totalMemoryUsage.toNat ≤ config.registersMemoryLimit.toNat
  size_le : regs.registers.size ≤ config.maxNumberRegisters.toNat
  length_le : ∀ registerId data, regs.registers.get? registerId = some data →
    data.length ≤ config.maxRegisterSize.toNat

theorem invariant_default (config : VMLimitConfig) : default.Invariant config where
  totalMemoryUsage_eq := rfl
  totalMemoryUsage_le := by simp [default]
  size_le := by simp [default]
  length_le := by simp [default]

/-! ## `check_set_register` -/

theorem calcUsage_eq_some_iff {len usage : UInt64} :
    calcUsage len = some usage ↔ len.toNat + 8 < 2 ^ 64 ∧ usage.toNat = len.toNat + 8 :=
  UInt64.checkedAdd_eq_some_iff

theorem calcUsage_of_lt {len : UInt64} (h : len.toNat + 8 < 2 ^ 64) :
    ∃ usage, calcUsage len = some usage ∧ usage.toNat = len.toNat + 8 := by
  have hsum : (len + 8).toNat = len.toNat + 8 := by
    rw [UInt64.toNat_add, UInt64.toNat_ofNat, Nat.mod_eq_of_lt (by omega)]
  exact ⟨len + 8, calcUsage_eq_some_iff.mpr ⟨h, hsum⟩, hsum⟩

/-- With the usage accounted, the register a set replaces has its usage within
the total: the usage of the other registers is what is left. -/
theorem Invariant.oldMemUsage_spec {config : VMLimitConfig} {regs : Registers}
    (hinv : regs.Invariant config) (registerId : ℕ) :
    ∃ oldMemUsage, regs.oldMemUsage registerId = some oldMemUsage ∧
      usageOf (regs.registers.erase registerId) + oldMemUsage.toNat =
        regs.totalMemoryUsage.toNat := by
  have htotal := regs.totalMemoryUsage.toNat_lt
  rw [hinv.totalMemoryUsage_eq] at htotal ⊢
  cases hget : regs.registers.get? registerId with
  | none =>
      refine ⟨0, by simp [oldMemUsage, hget], ?_⟩
      simp [usageOf_erase_of_get?_eq_none hget]
  | some data =>
      have hsum := usageOf_erase_of_get?_eq_some hget
      have hlen : (UInt64.ofNat data.length).toNat = data.length := by
        rw [UInt64.toNat_ofNat']
        omega
      obtain ⟨oldMemUsage, hold, hold'⟩ := @calcUsage_of_lt (UInt64.ofNat data.length)
        (by omega)
      refine ⟨oldMemUsage, by simp [Registers.oldMemUsage, hget, hold], ?_⟩
      omega

/-- `check_set_register` taken apart where it succeeds: both limits passed, the
map is as it was, and the usage is the old one with the replaced register's
usage swapped for the new one's, within the memory limit. -/
theorem checkSetRegister_eq_ok {regs regs' : Registers} {config : VMLimitConfig}
    {registerId : ℕ} {dataLen : UInt64}
    (h : regs.checkSetRegister config registerId dataLen = some (.ok regs')) :
    dataLen.toNat ≤ config.maxRegisterSize.toNat ∧
      regs.registers.size < config.maxNumberRegisters.toNat ∧ regs'.registers = regs.registers ∧
      ∃ oldMemUsage, regs.oldMemUsage registerId = some oldMemUsage ∧
        oldMemUsage.toNat ≤ regs.totalMemoryUsage.toNat ∧
        regs'.totalMemoryUsage.toNat =
          regs.totalMemoryUsage.toNat - oldMemUsage.toNat + (dataLen.toNat + 8) ∧
        regs'.totalMemoryUsage.toNat ≤ config.registersMemoryLimit.toNat := by
  unfold checkSetRegister at h
  split_ifs at h with hsize hnumber
  · cases h
  · cases h
  obtain ⟨oldMemUsage, hold, h⟩ := Option.bind_eq_some_iff.mp h
  obtain ⟨remaining, hremaining, h⟩ := Option.bind_eq_some_iff.mp h
  obtain ⟨newMemUsage, hnew, h⟩ := Option.bind_eq_some_iff.mp h
  have hsize' : dataLen.toNat ≤ config.maxRegisterSize.toNat :=
    UInt64.le_iff_toNat_le.mp (UInt64.not_lt.mp hsize)
  obtain ⟨hle, hremaining⟩ := UInt64.checkedSub_eq_some_iff.mp hremaining
  obtain ⟨-, hnew⟩ := calcUsage_eq_some_iff.mp hnew
  cases hadd : remaining.checkedAdd newMemUsage with
  | none =>
      rw [hadd] at h
      cases h
  | some usage =>
      rw [hadd] at h
      dsimp only at h
      obtain ⟨-, hadd⟩ := UInt64.checkedAdd_eq_some_iff.mp hadd
      split_ifs at h with hlimit
      · cases h
      · cases h
        have hlimit' := UInt64.le_iff_toNat_le.mp (UInt64.not_lt.mp hlimit)
        exact ⟨hsize', by omega, rfl, oldMemUsage, hold, hle, by dsimp only; omega, hlimit'⟩

example : ((default.checkSetRegister ⟨3, 2, 11⟩ 42 3).map fun r =>
    r.toOption.map (·.totalMemoryUsage)) = some (some 11) := by rfl

example : ((default.checkSetRegister ⟨3, 2, 11⟩ 42 4).map fun r =>
    r.toOption.map (·.totalMemoryUsage)) = some none := by rfl

example : (Registers.mk ((BTreeMap.empty.insert 42 [1, 2, 3]).insert 24 [4]) 20).checkSetRegister
    ⟨3, 2, 100⟩ 42 1 = some (.error .memoryAccessViolation) := by rfl

theorem toNat_ofNat_length {data : List UInt8} (hlen : data.length < 2 ^ 64) :
    (UInt64.ofNat data.length).toNat = data.length := by
  rw [UInt64.toNat_ofNat']
  exact Nat.mod_eq_of_lt hlen

/-- With the usage accounted, `check_set_register` only panics where
`calc_usage` of the new length overflows. -/
theorem Invariant.checkSetRegister_isSome {config : VMLimitConfig} {regs : Registers}
    (hinv : regs.Invariant config) (registerId : ℕ) {dataLen : UInt64}
    (hdataLen : dataLen.toNat + 8 < 2 ^ 64) :
    (regs.checkSetRegister config registerId dataLen).isSome := by
  obtain ⟨oldMemUsage, hold, hrest⟩ := hinv.oldMemUsage_spec registerId
  obtain ⟨newMemUsage, hnew, -⟩ := calcUsage_of_lt hdataLen
  cases hsub : regs.totalMemoryUsage.checkedSub oldMemUsage with
  | none =>
      have := UInt64.checkedSub_eq_none_iff.mp hsub
      omega
  | some remaining =>
      unfold checkSetRegister
      split_ifs
      · rfl
      · rfl
      · simp only [hold, hsub, hnew, Option.bind_eq_bind, Option.bind_some]
        cases remaining.checkedAdd newMemUsage with
        | none => rfl
        | some usage =>
            dsimp only
            split_ifs <;> rfl

/-! ## `set` -/

variable {writeRegisterBase writeRegisterByte}

/-- A set either fails and leaves the registers as they were, or passes
`check_set_register` and writes the value. -/
theorem set_cases {regs regs' : Registers}
    {gasCounter gasCounter' : GasCounter ActionCosts ExtCosts} {config : VMLimitConfig}
    {registerId : ℕ} {data : List UInt8} {result : Except HostError Unit}
    (h : regs.set writeRegisterBase writeRegisterByte gasCounter config registerId data =
      some (result, gasCounter', regs')) :
    (regs' = regs ∧ ∃ e, result = .error e) ∨
      (result = .ok () ∧ data.length < 2 ^ 64 ∧ ∃ checked,
        regs.checkSetRegister config registerId (UInt64.ofNat data.length) = some (.ok checked) ∧
        regs' = { checked with registers := checked.registers.insert registerId data }) := by
  unfold set at h
  split_ifs at h with hlen
  · dsimp only at h
    split at h
    · cases h
      exact .inl ⟨rfl, _, rfl⟩
    · split at h
      · cases h
        exact .inl ⟨rfl, _, rfl⟩
      · obtain ⟨checked, hcheck, hmap⟩ := Option.map_eq_some_iff.mp h
        rcases checked with e | checked
        · cases hmap
          exact .inl ⟨rfl, e, rfl⟩
        · cases hmap
          exact .inr ⟨rfl, hlen, checked, hcheck, rfl⟩
  · cases h
    exact .inl ⟨rfl, _, rfl⟩

theorem set_error {regs regs' : Registers}
    {gasCounter gasCounter' : GasCounter ActionCosts ExtCosts} {config : VMLimitConfig}
    {registerId : ℕ} {data : List UInt8} {e : HostError}
    (h : regs.set writeRegisterBase writeRegisterByte gasCounter config registerId data =
      some (.error e, gasCounter', regs')) :
    regs' = regs := by
  rcases set_cases h with ⟨hregs, -⟩ | ⟨hok, -⟩
  · exact hregs
  · cases hok

/-- Every set keeps the invariant. -/
theorem Invariant.set {config : VMLimitConfig} {regs regs' : Registers}
    {gasCounter gasCounter' : GasCounter ActionCosts ExtCosts} {registerId : ℕ}
    {data : List UInt8} {result : Except HostError Unit} (hinv : regs.Invariant config)
    (h : regs.set writeRegisterBase writeRegisterByte gasCounter config registerId data =
      some (result, gasCounter', regs')) :
    regs'.Invariant config := by
  rcases set_cases h with ⟨rfl, -⟩ | ⟨-, hlen, checked, hcheck, rfl⟩
  · exact hinv
  obtain ⟨hsize, hnumber, hregisters, oldMemUsage, hold, -, htotal, hlimit⟩ :=
    checkSetRegister_eq_ok hcheck
  obtain ⟨oldMemUsage', hold', hrest⟩ := hinv.oldMemUsage_spec registerId
  rw [hold] at hold'
  cases hold'
  rw [toNat_ofNat_length hlen] at hsize htotal
  have hinsert := usageOf_insert regs.registers registerId data
  constructor
  · dsimp only
    rw [hregisters]
    omega
  · exact hlimit
  · dsimp only
    rw [hregisters]
    have := regs.registers.size_le_size_insert registerId data
    omega
  · intro registerId' data' hget
    dsimp only at hget
    rw [hregisters, BTreeMap.get?_insert] at hget
    split_ifs at hget with hid
    · cases hget
      exact hsize
    · exact hinv.length_le registerId' data' hget

theorem Invariant.set_isSome {config : VMLimitConfig} {regs : Registers}
    (hinv : regs.Invariant config) (gasCounter : GasCounter ActionCosts ExtCosts)
    (registerId : ℕ) {data : List UInt8} (hlen : data.length + 8 < 2 ^ 64) :
    (regs.set writeRegisterBase writeRegisterByte gasCounter config registerId data).isSome := by
  have hcheck := hinv.checkSetRegister_isSome registerId
    (by rw [toNat_ofNat_length (by omega)]; exact hlen : (UInt64.ofNat data.length).toNat + 8 < 2 ^ 64)
  unfold Registers.set
  rw [if_pos (by omega)]
  dsimp only
  split
  · rfl
  · split
    · rfl
    · simpa using hcheck

/-- Every sequence of sets from `Registers::default()` keeps the invariant. -/
theorem Invariant.of_reachable {config : VMLimitConfig} {regs : Registers}
    (hrun : Relation.ReflTransGen (SetStep ActionCosts writeRegisterBase writeRegisterByte config)
      default regs) :
    regs.Invariant config := by
  induction hrun with
  | refl => exact invariant_default config
  | tail _ hstep ih =>
      obtain ⟨gasCounter, gasCounter', registerId, data, result, h⟩ := hstep
      exact ih.set h

/-- Over every sequence of sets from `Registers::default()`: the usage is the
sum over the registers and within every limit, the `checked_sub(..).unwrap()`
of `check_set_register` never panics, a set panics only where `calc_usage`
overflows on a length within eight of `2 ^ 64`, and a set that fails leaves the
registers as they were. -/
theorem reachable_registers_invariant {config : VMLimitConfig} {regs : Registers}
    (hrun : Relation.ReflTransGen (SetStep ActionCosts writeRegisterBase writeRegisterByte config)
      default regs) :
    regs.Invariant config ∧
      (∀ registerId, ∃ oldMemUsage remaining, regs.oldMemUsage registerId = some oldMemUsage ∧
        regs.totalMemoryUsage.checkedSub oldMemUsage = some remaining) ∧
      (∀ (gasCounter : GasCounter ActionCosts ExtCosts) registerId (data : List UInt8),
        data.length + 8 < 2 ^ 64 →
          (regs.set writeRegisterBase writeRegisterByte gasCounter config registerId data).isSome) ∧
      (∀ (gasCounter gasCounter' : GasCounter ActionCosts ExtCosts) registerId data e regs',
        regs.set writeRegisterBase writeRegisterByte gasCounter config registerId data =
          some (.error e, gasCounter', regs') → regs' = regs) := by
  have hinv := Invariant.of_reachable hrun
  refine ⟨hinv, fun registerId => ?_, fun gasCounter registerId data hlen =>
    hinv.set_isSome gasCounter registerId hlen, fun _ _ _ _ _ _ h => set_error h⟩
  obtain ⟨oldMemUsage, hold, hrest⟩ := hinv.oldMemUsage_spec registerId
  have hle : oldMemUsage ≤ regs.totalMemoryUsage := UInt64.le_iff_toNat_le.mpr (by omega)
  exact ⟨oldMemUsage, regs.totalMemoryUsage - oldMemUsage, hold,
    UInt64.checkedSub_eq_some_iff.mpr ⟨by omega, UInt64.toNat_sub_of_le _ _ hle⟩⟩

/-- Four sets under the limits `⟨3, 2, 20⟩`: a new register, the same register replaced by a
shorter value, a second register, and a replacement that fails at the limit on the number of
registers. -/
theorem reachable_registers_invariant_fourSets :
    Relation.ReflTransGen (SetStep Unit () () ⟨3, 2, 20⟩) default
        ⟨((BTreeMap.empty.insert 0 [1, 2, 3]).insert 0 [4]).insert 1 [5, 6], 19⟩ ∧
      Invariant ⟨3, 2, 20⟩ ⟨((BTreeMap.empty.insert 0 [1, 2, 3]).insert 0 [4]).insert 1 [5, 6], 19⟩ ∧
      (∀ registerId, ∃ oldMemUsage remaining,
        Registers.oldMemUsage (⟨((BTreeMap.empty.insert 0 [1, 2, 3]).insert 0 [4]).insert 1 [5, 6], 19⟩ :
          Registers) registerId = some oldMemUsage ∧
        (19 : UInt64).checkedSub oldMemUsage = some remaining) ∧
      (∀ (gasCounter : GasCounter Unit Unit) registerId (data : List UInt8),
        data.length + 8 < 2 ^ 64 →
          ((⟨((BTreeMap.empty.insert 0 [1, 2, 3]).insert 0 [4]).insert 1 [5, 6], 19⟩ :
            Registers).set () () gasCounter ⟨3, 2, 20⟩ registerId data).isSome) ∧
      (∀ (gasCounter gasCounter' : GasCounter Unit Unit) registerId data e regs',
        (⟨((BTreeMap.empty.insert 0 [1, 2, 3]).insert 0 [4]).insert 1 [5, 6], 19⟩ :
          Registers).set () () gasCounter ⟨3, 2, 20⟩ registerId data =
            some (.error e, gasCounter', regs') →
          regs' = ⟨((BTreeMap.empty.insert 0 [1, 2, 3]).insert 0 [4]).insert 1 [5, 6], 19⟩) := by
  have h₁ : SetStep Unit () () ⟨3, 2, 20⟩ default ⟨BTreeMap.empty.insert 0 [1, 2, 3], 11⟩ :=
    ⟨.new ⟨fun _ => 1⟩ 1000 1 1000 false, _, 0, [1, 2, 3], _, rfl⟩
  have h₂ : SetStep Unit () () ⟨3, 2, 20⟩ ⟨BTreeMap.empty.insert 0 [1, 2, 3], 11⟩
      ⟨(BTreeMap.empty.insert 0 [1, 2, 3]).insert 0 [4], 9⟩ :=
    ⟨.new ⟨fun _ => 1⟩ 1000 1 1000 false, _, 0, [4], _, rfl⟩
  have h₃ : SetStep Unit () () ⟨3, 2, 20⟩ ⟨(BTreeMap.empty.insert 0 [1, 2, 3]).insert 0 [4], 9⟩
      ⟨((BTreeMap.empty.insert 0 [1, 2, 3]).insert 0 [4]).insert 1 [5, 6], 19⟩ :=
    ⟨.new ⟨fun _ => 1⟩ 1000 1 1000 false, _, 1, [5, 6], _, rfl⟩
  have h₄ : SetStep Unit () () ⟨3, 2, 20⟩
      ⟨((BTreeMap.empty.insert 0 [1, 2, 3]).insert 0 [4]).insert 1 [5, 6], 19⟩
      ⟨((BTreeMap.empty.insert 0 [1, 2, 3]).insert 0 [4]).insert 1 [5, 6], 19⟩ :=
    ⟨.new ⟨fun _ => 1⟩ 1000 1 1000 false, _, 0, [7], _, rfl⟩
  have hrun := ((((Relation.ReflTransGen.refl.tail h₁).tail h₂).tail h₃).tail h₄)
  exact ⟨hrun, reachable_registers_invariant hrun⟩

end Registers

end VmLogic
end Nearcore
