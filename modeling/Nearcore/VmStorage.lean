import Nearcore.VmRegisters

/-!
# Storage usage in `storage_write` and `storage_remove`

The two host functions of `VMLogic` (`logic.rs`) that change the contract's
data keep `current_storage_usage` in step with it: a new record adds its key,
its value and `num_extra_bytes_record` bytes, an overwrite swaps the value's
length, a removal takes the record off again.  Both functions first charge
gas and check the lengths; `storage_write` then sets the key and updates the
usage, `storage_remove` removes the key, charges the trie fees and updates the
usage; each then returns the old value in a register.

The `External` is the `MockedExternal` (`mock_external.rs`): its `fake_trie`
is the map (a `HashMap` in the source), and it counts no trie nodes, so the
trie fees are charged for zero nodes.  The key and the value are the bytes
that `get_memory_or_register!` reads, `len` bytes for a `len : u64`: the model
fails with `MemoryAccessViolation` on a longer one, and charges no gas for the
read.  The `ExtCosts` the two functions charge are
parameters, as `ExtCosts` is in the gas counter.

The usage is updated only after the map, so where its `checked_add`
overflows, `storage_write` returns `IntegerOverflow` with the record written
and the usage not increased.  Every other call keeps the difference between
the usage and the records' sum, which stays non-negative, so that no
`checked_sub` of either function fails (`storageUsage_accounted`).
-/

set_option linter.unusedSectionVars false

namespace Nearcore
namespace VmLogic

inductive InconsistentStateError where
  | integerOverflow
  deriving DecidableEq, Repr

/-- The variants of `VMLogicError` that the two functions return. -/
inductive VMLogicError where
  | hostError (error : HostError)
  | inconsistentStateError (error : InconsistentStateError)
  deriving DecidableEq, Repr

structure TrieNodesCount where
  dbReads : UInt64
  memReads : UInt64
  deriving DecidableEq, Repr

/-- The `ExtCosts` that `storage_write` and `storage_remove` charge. -/
structure StorageExtCosts (ExtCosts : Type) where
  base : ExtCosts
  storageWriteBase : ExtCosts
  storageWriteKeyByte : ExtCosts
  storageWriteValueByte : ExtCosts
  storageWriteEvictedByte : ExtCosts
  storageRemoveBase : ExtCosts
  storageRemoveKeyByte : ExtCosts
  storageRemoveRetValueByte : ExtCosts
  touchingTrieNode : ExtCosts
  readCachedTrieNode : ExtCosts
  writeRegisterBase : ExtCosts
  writeRegisterByte : ExtCosts

/-- The part of `VMLogic` that the two functions read and write: the view flag
of the context, the limits of the config, `num_extra_bytes_record` of the fees
config, the `MockedExternal`'s map, the gas counter, the registers and the
storage usage. -/
structure VMLogic (ActionCosts ExtCosts : Type) where
  isView : Bool
  limitConfig : VMLimitConfig
  maxLengthStorageKey : UInt64
  maxLengthStorageValue : UInt64
  numExtraBytesRecord : UInt64
  fakeTrie : BTreeMap (List UInt8) (List UInt8)
  gasCounter : GasCounter ActionCosts ExtCosts
  registers : Registers
  currentStorageUsage : UInt64

variable {ActionCosts ExtCosts : Type} [FinEnum ActionCosts] [FinEnum ExtCosts]

/-- `GasCounter::add_trie_fees`. -/
def GasCounter.addTrieFees (self : GasCounter ActionCosts ExtCosts)
    (touchingTrieNode readCachedTrieNode : ExtCosts) (count : TrieNodesCount) :
    Except HostError Unit × GasCounter ActionCosts ExtCosts :=
  match self.payPer touchingTrieNode count.dbReads with
  | (.error e, self) => (.error e, self)
  | (.ok (), self) => self.payPer readCachedTrieNode count.memReads

/-- `VMLogic::deref_value`, where dereferencing the mocked value cannot fail. -/
def derefValue (gasCounter : GasCounter ActionCosts ExtCosts) (costPerByte : ExtCosts)
    (valuePtr : Option (List UInt8)) :
    Except HostError (Option (List UInt8)) × GasCounter ActionCosts ExtCosts :=
  match valuePtr with
  | some value =>
      match gasCounter.payPer costPerByte (UInt64.ofNat value.length) with
      | (.error e, gasCounter) => (.error e, gasCounter)
      | (.ok (), gasCounter) => (.ok (some value), gasCounter)
  | none => (.ok none, gasCounter)

/-- `value.len() as u64 + key.len() as u64 + num_extra_bytes_record`, the
bytes a record takes; `none` where the addition overflows, which panics. -/
def recordSize (numExtraBytesRecord : UInt64) (key value : List UInt8) : Option UInt64 :=
  ((UInt64.ofNat value.length).checkedAdd (UInt64.ofNat key.length)).bind
    (·.checkedAdd numExtraBytesRecord)

/-- `MockedExternal::get_trie_nodes_count`, so that every `nodes_delta` is zero. -/
def mockedTrieNodesCount : TrieNodesCount := ⟨0, 0⟩

namespace VMLogic

/-- A call `f(&mut self.gas_counter)?` followed by the rest `k` of the function. -/
def charge {α β : Type} (self : VMLogic ActionCosts ExtCosts)
    (f : GasCounter ActionCosts ExtCosts → Except HostError α × GasCounter ActionCosts ExtCosts)
    (k : α → VMLogic ActionCosts ExtCosts → Option (Except VMLogicError β × VMLogic ActionCosts ExtCosts)) :
    Option (Except VMLogicError β × VMLogic ActionCosts ExtCosts) :=
  match f self.gasCounter with
  | (.error e, gasCounter) => some (.error (.hostError e), { self with gasCounter })
  | (.ok a, gasCounter) => k a { self with gasCounter }

/-- `self.registers.set(&mut self.gas_counter, &self.config.limit_config, register_id, value)?`
and `Ok(1)`. -/
def setRegister (writeRegisterBase writeRegisterByte : ExtCosts) (self : VMLogic ActionCosts ExtCosts)
    (registerId : ℕ) (value : List UInt8) : Option (Except VMLogicError UInt64 × VMLogic ActionCosts ExtCosts) :=
  (self.registers.set writeRegisterBase writeRegisterByte self.gasCounter self.limitConfig registerId
      value).map fun
    | (.error e, gasCounter, registers) => (.error (.hostError e), { self with gasCounter, registers })
    | (.ok (), gasCounter, registers) => (.ok 1, { self with gasCounter, registers })

variable (costs : StorageExtCosts ExtCosts)

/-- `VMLogic::storage_write`; `none` where it panics. -/
def storageWrite (self : VMLogic ActionCosts ExtCosts) (key value : List UInt8) (registerId : ℕ) :
    Option (Except VMLogicError UInt64 × VMLogic ActionCosts ExtCosts) :=
  self.charge (·.payBase costs.base) fun () self =>
  if self.isView then
    some (.error (.hostError (.prohibitedInView "storage_write")), self)
  else
  self.charge (·.payBase costs.storageWriteBase) fun () self =>
  if 2 ^ 64 ≤ key.length then some (.error (.hostError .memoryAccessViolation), self)
  else if UInt64.ofNat key.length > self.maxLengthStorageKey then
    some (.error (.hostError (.keyLengthExceeded (UInt64.ofNat key.length) self.maxLengthStorageKey)),
      self)
  else if 2 ^ 64 ≤ value.length then some (.error (.hostError .memoryAccessViolation), self)
  else if UInt64.ofNat value.length > self.maxLengthStorageValue then
    some (.error (.hostError
      (.valueLengthExceeded (UInt64.ofNat value.length) self.maxLengthStorageValue)), self)
  else
  self.charge (·.payPer costs.storageWriteKeyByte (UInt64.ofNat key.length)) fun () self =>
  self.charge (·.payPer costs.storageWriteValueByte (UInt64.ofNat value.length)) fun () self =>
  self.charge (derefValue · costs.storageWriteEvictedByte (self.fakeTrie.get? key)) fun evicted self =>
  self.charge (·.addTrieFees costs.touchingTrieNode costs.readCachedTrieNode mockedTrieNodesCount)
    fun () self =>
  -- `storage_set` comes before the usage is updated
  let self := { self with fakeTrie := self.fakeTrie.insert key value }
  match evicted with
  | some oldValue =>
      match self.currentStorageUsage.checkedSub (UInt64.ofNat oldValue.length) with
      | none => some (.error (.inconsistentStateError .integerOverflow), self)
      | some currentStorageUsage =>
          let self := { self with currentStorageUsage }
          match self.currentStorageUsage.checkedAdd (UInt64.ofNat value.length) with
          | none => some (.error (.inconsistentStateError .integerOverflow), self)
          | some currentStorageUsage =>
              setRegister costs.writeRegisterBase costs.writeRegisterByte
                { self with currentStorageUsage } registerId oldValue
  | none =>
      (recordSize self.numExtraBytesRecord key value).bind fun size =>
        match self.currentStorageUsage.checkedAdd size with
        | none => some (.error (.inconsistentStateError .integerOverflow), self)
        | some currentStorageUsage => some (.ok 0, { self with currentStorageUsage })

/-- `VMLogic::storage_remove`; `none` where it panics. -/
def storageRemove (self : VMLogic ActionCosts ExtCosts) (key : List UInt8) (registerId : ℕ) :
    Option (Except VMLogicError UInt64 × VMLogic ActionCosts ExtCosts) :=
  self.charge (·.payBase costs.base) fun () self =>
  if self.isView then
    some (.error (.hostError (.prohibitedInView "storage_remove")), self)
  else
  self.charge (·.payBase costs.storageRemoveBase) fun () self =>
  if 2 ^ 64 ≤ key.length then some (.error (.hostError .memoryAccessViolation), self)
  else if UInt64.ofNat key.length > self.maxLengthStorageKey then
    some (.error (.hostError (.keyLengthExceeded (UInt64.ofNat key.length) self.maxLengthStorageKey)),
      self)
  else
  self.charge (·.payPer costs.storageRemoveKeyByte (UInt64.ofNat key.length)) fun () self =>
  self.charge (derefValue · costs.storageRemoveRetValueByte (self.fakeTrie.get? key)) fun removed self =>
  -- `storage_remove` comes before the trie fees are charged
  let self := { self with fakeTrie := self.fakeTrie.erase key }
  self.charge (·.addTrieFees costs.touchingTrieNode costs.readCachedTrieNode mockedTrieNodesCount)
    fun () self =>
  match removed with
  | some value =>
      (recordSize self.numExtraBytesRecord key value).bind fun size =>
        match self.currentStorageUsage.checkedSub size with
        | none => some (.error (.inconsistentStateError .integerOverflow), self)
        | some currentStorageUsage =>
            setRegister costs.writeRegisterBase costs.writeRegisterByte
              { self with currentStorageUsage } registerId value
  | none => some (.ok 0, self)

end VMLogic

/-- A call of one of the two host functions. -/
inductive StorageCall where
  | storageWrite (key value : List UInt8) (registerId : ℕ)
  | storageRemove (key : List UInt8) (registerId : ℕ)
  deriving DecidableEq, Repr

def StorageCall.run (costs : StorageExtCosts ExtCosts) :
    StorageCall → VMLogic ActionCosts ExtCosts →
      Option (Except VMLogicError UInt64 × VMLogic ActionCosts ExtCosts)
  | .storageWrite key value registerId, self => self.storageWrite costs key value registerId
  | .storageRemove key registerId, self => self.storageRemove costs key registerId

/-- A call of either function that does not fail with `IntegerOverflow`. -/
def StorageStep (costs : StorageExtCosts ExtCosts) (self self' : VMLogic ActionCosts ExtCosts) : Prop :=
  ∃ (call : StorageCall) (r : Except VMLogicError UInt64), call.run costs self = some (r, self') ∧
    r ≠ .error (.inconsistentStateError .integerOverflow)


/-! ## The gas charges -/

namespace GasCounter

/-- The burnt gas is within the cached limit, as after every charge that returned `Ok`. -/
def WithinLimit (c : GasCounter ActionCosts ExtCosts) : Prop :=
  c.fastCounter.burntGas ≤ c.fastCounter.gasLimit

variable {c : GasCounter ActionCosts ExtCosts}

theorem burnGas_withinLimit {g : Gas} (h : (c.burnGas g).1 = .ok ()) :
    (c.burnGas g).2.WithinLimit := by
  unfold burnGas at h ⊢
  cases hadd : c.fastCounter.burntGas.checkedAdd g with
  | none =>
      rw [hadd] at h
      cases h
  | some newBurntGas =>
      rw [hadd] at h
      dsimp only at h ⊢
      by_cases hfit : newBurntGas ≤ c.fastCounter.gasLimit
      · rw [if_pos hfit]
        exact hfit
      · rw [if_neg hfit] at h
        cases h

theorem payPer_withinLimit {cost : ExtCosts} {num : UInt64} (h : (c.payPer cost num).1 = .ok ()) :
    (c.payPer cost num).2.WithinLimit := by
  unfold payPer at h ⊢
  cases hmul : num.checkedMul (c.extCostsConfig.costs cost) with
  | none =>
      rw [hmul] at h
      cases h
  | some useGas =>
      rw [hmul] at h
      exact burnGas_withinLimit h

theorem payPer_zero (hc : c.WithinLimit) (cost : ExtCosts) :
    (c.payPer cost 0).1 = .ok () ∧ (c.payPer cost 0).2.WithinLimit := by
  have hmul : (0 : UInt64).checkedMul (c.extCostsConfig.costs cost) = some 0 := by
    rw [UInt64.checkedMul, if_pos (by simp)]
    simp
  have hadd : c.fastCounter.burntGas.checkedAdd 0 = some c.fastCounter.burntGas := by
    rw [UInt64.checkedAdd, if_pos (by simpa using c.fastCounter.burntGas.toNat_lt), UInt64.add_zero]
  have hfit : c.fastCounter.burntGas ≤ c.fastCounter.gasLimit := hc
  simp only [payPer, hmul, burnAndRecordHost, burnGas, hadd, if_pos hfit, true_and]
  exact hc

theorem addTrieFees_mocked (hc : c.WithinLimit) (touchingTrieNode readCachedTrieNode : ExtCosts) :
    (c.addTrieFees touchingTrieNode readCachedTrieNode mockedTrieNodesCount).1 = .ok () := by
  obtain ⟨htouch, hc'⟩ := payPer_zero hc touchingTrieNode
  unfold addTrieFees
  rw [show (c.payPer touchingTrieNode mockedTrieNodesCount.dbReads) =
    (.ok (), (c.payPer touchingTrieNode 0).2) from Prod.ext htouch rfl]
  exact (payPer_zero hc' readCachedTrieNode).1

end GasCounter

theorem derefValue_withinLimit {gasCounter : GasCounter ActionCosts ExtCosts} {costPerByte : ExtCosts}
    {valuePtr : Option (List UInt8)} (hc : gasCounter.WithinLimit) {value : Option (List UInt8)}
    (h : (derefValue gasCounter costPerByte valuePtr).1 = .ok value) :
    (derefValue gasCounter costPerByte valuePtr).2.WithinLimit := by
  cases valuePtr with
  | none => exact hc
  | some bytes =>
      unfold derefValue at h ⊢
      dsimp only at h ⊢
      cases hpay : gasCounter.payPer costPerByte (UInt64.ofNat bytes.length) with
      | mk result gasCounter' =>
          rw [hpay] at h
          cases result with
          | error e => cases h
          | ok u =>
              have hok : (gasCounter.payPer costPerByte (UInt64.ofNat bytes.length)).1 = .ok () := by
                rw [hpay]
              have := GasCounter.payPer_withinLimit hok
              rw [hpay] at this
              exact this

theorem derefValue_eq_ok {gasCounter gasCounter' : GasCounter ActionCosts ExtCosts}
    {costPerByte : ExtCosts} {valuePtr value : Option (List UInt8)}
    (h : derefValue gasCounter costPerByte valuePtr = (.ok value, gasCounter')) : value = valuePtr := by
  unfold derefValue at h
  split at h
  · split at h
    · cases h
    · cases h
      rfl
  · cases h
    rfl

/-! ## What the calls do to the storage -/

/-- The bytes the records of a map take, each its key, its value and
`num_extra_bytes_record`. -/
def recordsUsage (numExtraBytesRecord : UInt64) (fakeTrie : BTreeMap (List UInt8) (List UInt8)) : ℕ :=
  fakeTrie.sumBy fun key value => key.length + value.length + numExtraBytesRecord.toNat

section Records

variable (numExtraBytesRecord : UInt64) {fakeTrie : BTreeMap (List UInt8) (List UInt8)}
  {key value : List UInt8}

theorem recordsUsage_insert_of_get?_eq_none (hget : fakeTrie.get? key = none) (value : List UInt8) :
    recordsUsage numExtraBytesRecord (fakeTrie.insert key value) =
      recordsUsage numExtraBytesRecord fakeTrie + (key.length + value.length + numExtraBytesRecord.toNat) :=
  BTreeMap.sumBy_insert_of_get?_eq_none _ hget value

theorem recordsUsage_insert_of_get?_eq_some {old : List UInt8} (hget : fakeTrie.get? key = some old)
    (value : List UInt8) :
    recordsUsage numExtraBytesRecord (fakeTrie.insert key value) + old.length =
      recordsUsage numExtraBytesRecord fakeTrie + value.length := by
  have h := BTreeMap.sumBy_insert_of_get?_eq_some
    (fun key value => key.length + value.length + numExtraBytesRecord.toNat) hget value
  unfold recordsUsage
  omega

theorem recordsUsage_erase_of_get?_eq_some (hget : fakeTrie.get? key = some value) :
    recordsUsage numExtraBytesRecord (fakeTrie.erase key) +
        (key.length + value.length + numExtraBytesRecord.toNat) =
      recordsUsage numExtraBytesRecord fakeTrie :=
  BTreeMap.sumBy_erase_of_get?_eq_some _ hget

theorem recordsUsage_erase_of_get?_eq_none (hget : fakeTrie.get? key = none) :
    recordsUsage numExtraBytesRecord (fakeTrie.erase key) = recordsUsage numExtraBytesRecord fakeTrie := by
  simp only [recordsUsage, BTreeMap.sumBy, BTreeMap.erase_of_get?_eq_none hget]

theorem record_le_recordsUsage (hget : fakeTrie.get? key = some value) :
    key.length + value.length + numExtraBytesRecord.toNat ≤ recordsUsage numExtraBytesRecord fakeTrie :=
  BTreeMap.le_sumBy_of_get?_eq_some (fun key value => key.length + value.length + numExtraBytesRecord.toNat)
    hget

end Records

namespace VMLogic

/-- `after` has the map, the usage and the record overhead of `before`. -/
structure SameStorage (before after : VMLogic ActionCosts ExtCosts) : Prop where
  fakeTrie_eq : after.fakeTrie = before.fakeTrie
  currentStorageUsage_eq : after.currentStorageUsage = before.currentStorageUsage
  numExtraBytesRecord_eq : after.numExtraBytesRecord = before.numExtraBytesRecord

variable {self self' : VMLogic ActionCosts ExtCosts}

theorem SameStorage.trans {mid : VMLogic ActionCosts ExtCosts} (h₁ : SameStorage self mid)
    (h₂ : SameStorage mid self') : SameStorage self self' :=
  ⟨h₂.fakeTrie_eq.trans h₁.fakeTrie_eq, h₂.currentStorageUsage_eq.trans h₁.currentStorageUsage_eq,
    h₂.numExtraBytesRecord_eq.trans h₁.numExtraBytesRecord_eq⟩

/-- A charge either fails, with nothing but the gas counter changed, or goes on
with the rest of the function. -/
theorem charge_eq_some {α β : Type}
    {f : GasCounter ActionCosts ExtCosts → Except HostError α × GasCounter ActionCosts ExtCosts}
    {k : α → VMLogic ActionCosts ExtCosts → Option (Except VMLogicError β × VMLogic ActionCosts ExtCosts)}
    {r : Except VMLogicError β} (h : self.charge f k = some (r, self')) :
    (SameStorage self self' ∧ ∃ e gasCounter, f self.gasCounter = (.error e, gasCounter) ∧
        r = .error (.hostError e)) ∨
      ∃ a gasCounter, f self.gasCounter = (.ok a, gasCounter) ∧
        k a { self with gasCounter } = some (r, self') := by
  unfold charge at h
  split at h
  · next e gasCounter hf =>
      cases h
      exact .inl ⟨⟨rfl, rfl, rfl⟩, e, gasCounter, hf, rfl⟩
  · next a gasCounter hf => exact .inr ⟨a, gasCounter, hf, h⟩

theorem guard_eq_some {β : Type} {c : Prop} [Decidable c] {e : VMLogicError}
    {mid : VMLogic ActionCosts ExtCosts} {rest : Option (Except VMLogicError β × VMLogic ActionCosts ExtCosts)}
    {r : Except VMLogicError β} (h : (if c then some (.error e, mid) else rest) = some (r, self')) :
    self' = mid ∧ r = .error e ∨ ¬c ∧ rest = some (r, self') := by
  by_cases hc : c
  · rw [if_pos hc] at h
    cases h
    exact .inl ⟨rfl, rfl⟩
  · rw [if_neg hc] at h
    exact .inr ⟨hc, h⟩

theorem setRegister_sameStorage {writeRegisterBase writeRegisterByte : ExtCosts} {registerId : ℕ}
    {value : List UInt8} {r : Except VMLogicError UInt64}
    (h : self.setRegister writeRegisterBase writeRegisterByte registerId value = some (r, self')) :
    SameStorage self self' ∧ r ≠ .error (.inconsistentStateError .integerOverflow) := by
  unfold setRegister at h
  obtain ⟨⟨result, gasCounter, registers⟩, -, h⟩ := Option.map_eq_some_iff.mp h
  cases result <;> cases h <;> exact ⟨⟨rfl, rfl, rfl⟩, by simp⟩

/-- The record overhead is the same, the usage is at least the records' sum, and
it exceeds it by as much as in `before`. -/
structure KeepsSlack (before after : VMLogic ActionCosts ExtCosts) : Prop where
  numExtraBytesRecord_eq : after.numExtraBytesRecord = before.numExtraBytesRecord
  recordsUsage_le :
    recordsUsage after.numExtraBytesRecord after.fakeTrie ≤ after.currentStorageUsage.toNat
  slack_eq :
    after.currentStorageUsage.toNat - recordsUsage after.numExtraBytesRecord after.fakeTrie =
      before.currentStorageUsage.toNat - recordsUsage before.numExtraBytesRecord before.fakeTrie

theorem SameStorage.keepsSlack (h : SameStorage self self')
    (hslack : recordsUsage self.numExtraBytesRecord self.fakeTrie ≤ self.currentStorageUsage.toNat) :
    KeepsSlack self self' := by
  refine ⟨h.numExtraBytesRecord_eq, ?_, ?_⟩ <;>
    rw [h.fakeTrie_eq, h.numExtraBytesRecord_eq, h.currentStorageUsage_eq]
  exact hslack

theorem KeepsSlack.trans {mid : VMLogic ActionCosts ExtCosts} (h₁ : KeepsSlack self mid)
    (h₂ : KeepsSlack mid self') : KeepsSlack self self' :=
  ⟨h₂.numExtraBytesRecord_eq.trans h₁.numExtraBytesRecord_eq, h₂.recordsUsage_le,
    h₂.slack_eq.trans h₁.slack_eq⟩

theorem SameStorage.keepsSlack_hostError {e : HostError} (h : SameStorage self self')
    (hslack : recordsUsage self.numExtraBytesRecord self.fakeTrie ≤ self.currentStorageUsage.toNat) :
    KeepsSlack self self' ∧
      (.error (.hostError e) : Except VMLogicError UInt64) ≠ .error (.inconsistentStateError .integerOverflow) :=
  ⟨h.keepsSlack hslack, by simp⟩

/-- What a call from `self` that returns `r` in `self'` does to the usage: it keeps
the difference to the records' sum, or it fails with `IntegerOverflow` where the
usage the records need does not fit in a `u64`. -/
def UsageStep (self : VMLogic ActionCosts ExtCosts) (r : Except VMLogicError UInt64)
    (self' : VMLogic ActionCosts ExtCosts) : Prop :=
  KeepsSlack self self' ∧ r ≠ .error (.inconsistentStateError .integerOverflow) ∨
    self'.numExtraBytesRecord = self.numExtraBytesRecord ∧
      r = .error (.inconsistentStateError .integerOverflow) ∧
      2 ^ 64 ≤ self.currentStorageUsage.toNat - recordsUsage self.numExtraBytesRecord self.fakeTrie +
        recordsUsage self'.numExtraBytesRecord self'.fakeTrie

end VMLogic

theorem recordSize_eq_some {numExtraBytesRecord : UInt64} {key value : List UInt8} {size : UInt64}
    (h : recordSize numExtraBytesRecord key value = some size) (hkey : key.length < 2 ^ 64)
    (hvalue : value.length < 2 ^ 64) :
    size.toNat = key.length + value.length + numExtraBytesRecord.toNat := by
  unfold recordSize at h
  obtain ⟨sum, hsum, hsize⟩ := Option.bind_eq_some_iff.mp h
  obtain ⟨-, hsum⟩ := UInt64.checkedAdd_eq_some_iff.mp hsum
  obtain ⟨-, hsize⟩ := UInt64.checkedAdd_eq_some_iff.mp hsize
  rw [UInt64.toNat_ofNat', UInt64.toNat_ofNat', Nat.mod_eq_of_lt hkey, Nat.mod_eq_of_lt hvalue] at hsum
  omega

namespace VMLogic

variable {self self' : VMLogic ActionCosts ExtCosts} {costs : StorageExtCosts ExtCosts}

theorem keepsSlack_of_hostError {mid : VMLogic ActionCosts ExtCosts} {e : HostError}
    (h : SameStorage mid self') (hmid : SameStorage self mid)
    (hslack : recordsUsage self.numExtraBytesRecord self.fakeTrie ≤ self.currentStorageUsage.toNat) :
    KeepsSlack self self' ∧
      (.error (.hostError e) : Except VMLogicError UInt64) ≠ .error (.inconsistentStateError .integerOverflow) :=
  (hmid.trans h).keepsSlack_hostError hslack

theorem storageWrite_usageStep {key value : List UInt8} {registerId : ℕ}
    {r : Except VMLogicError UInt64}
    (hslack : recordsUsage self.numExtraBytesRecord self.fakeTrie ≤ self.currentStorageUsage.toNat)
    (h : self.storageWrite costs key value registerId = some (r, self')) : UsageStep self r self' := by
  unfold storageWrite at h
  -- every charge and every check before `storage_set` fails with the storage untouched
  rcases charge_eq_some h with ⟨hsame, e, -, -, rfl⟩ | ⟨_, g₁, -, h⟩
  · exact .inl (hsame.keepsSlack_hostError hslack)
  rcases guard_eq_some h with ⟨rfl, rfl⟩ | ⟨-, h⟩
  · exact .inl (SameStorage.keepsSlack_hostError ⟨rfl, rfl, rfl⟩ hslack)
  rcases charge_eq_some h with ⟨hsame, e, -, -, rfl⟩ | ⟨_, g₂, -, h⟩
  · exact .inl (keepsSlack_of_hostError hsame ⟨rfl, rfl, rfl⟩ hslack)
  rcases guard_eq_some h with ⟨rfl, rfl⟩ | ⟨hkeyRead, h⟩
  · exact .inl (SameStorage.keepsSlack_hostError ⟨rfl, rfl, rfl⟩ hslack)
  rcases guard_eq_some h with ⟨rfl, rfl⟩ | ⟨-, h⟩
  · exact .inl (SameStorage.keepsSlack_hostError ⟨rfl, rfl, rfl⟩ hslack)
  rcases guard_eq_some h with ⟨rfl, rfl⟩ | ⟨hvalueRead, h⟩
  · exact .inl (SameStorage.keepsSlack_hostError ⟨rfl, rfl, rfl⟩ hslack)
  rcases guard_eq_some h with ⟨rfl, rfl⟩ | ⟨-, h⟩
  · exact .inl (SameStorage.keepsSlack_hostError ⟨rfl, rfl, rfl⟩ hslack)
  rcases charge_eq_some h with ⟨hsame, e, -, -, rfl⟩ | ⟨_, g₃, -, h⟩
  · exact .inl (keepsSlack_of_hostError hsame ⟨rfl, rfl, rfl⟩ hslack)
  rcases charge_eq_some h with ⟨hsame, e, -, -, rfl⟩ | ⟨_, g₄, -, h⟩
  · exact .inl (keepsSlack_of_hostError hsame ⟨rfl, rfl, rfl⟩ hslack)
  rcases charge_eq_some h with ⟨hsame, e, -, -, rfl⟩ | ⟨evicted, g₅, hderef, h⟩
  · exact .inl (keepsSlack_of_hostError hsame ⟨rfl, rfl, rfl⟩ hslack)
  rcases charge_eq_some h with ⟨hsame, e, -, -, rfl⟩ | ⟨_, g₆, -, h⟩
  · exact .inl (keepsSlack_of_hostError hsame ⟨rfl, rfl, rfl⟩ hslack)
  have hevicted := derefValue_eq_ok hderef
  dsimp only at hevicted h
  subst hevicted
  have hkeyLen : key.length < 2 ^ 64 := Nat.lt_of_not_le hkeyRead
  have hvalueLen : value.length < 2 ^ 64 := Nat.lt_of_not_le hvalueRead
  have hU := self.currentStorageUsage.toNat_lt
  cases hget : self.fakeTrie.get? key with
  | none =>
      have hrecords := recordsUsage_insert_of_get?_eq_none self.numExtraBytesRecord hget value
      rw [hget] at h
      cases hsize : recordSize self.numExtraBytesRecord key value with
      | none =>
          rw [hsize] at h
          cases h
      | some size =>
          have hsizeNat := recordSize_eq_some hsize hkeyLen hvalueLen
          rw [hsize, Option.bind_some] at h
          cases hadd : self.currentStorageUsage.checkedAdd size with
          | none =>
              rw [hadd] at h
              cases h
              have hover := UInt64.checkedAdd_eq_none_iff.mp hadd
              refine .inr ⟨rfl, rfl, ?_⟩
              dsimp only
              omega
          | some usage =>
              rw [hadd] at h
              cases h
              obtain ⟨-, husage⟩ := UInt64.checkedAdd_eq_some_iff.mp hadd
              refine .inl ⟨⟨rfl, ?_, ?_⟩, by simp⟩ <;> dsimp only <;> omega
  | some oldValue =>
      have hrecords := recordsUsage_insert_of_get?_eq_some self.numExtraBytesRecord hget value
      have hold := record_le_recordsUsage self.numExtraBytesRecord hget
      rw [hget] at h
      dsimp only at h
      have hsub : self.currentStorageUsage.checkedSub (UInt64.ofNat oldValue.length) =
          some (self.currentStorageUsage - UInt64.ofNat oldValue.length) := by
        rw [UInt64.checkedSub, if_pos]
        rw [UInt64.le_iff_toNat_le, UInt64.toNat_ofNat', Nat.mod_eq_of_lt (by omega)]
        omega
      have hsubNat : (self.currentStorageUsage - UInt64.ofNat oldValue.length).toNat =
          self.currentStorageUsage.toNat - oldValue.length := by
        obtain ⟨-, h⟩ := UInt64.checkedSub_eq_some_iff.mp hsub
        rw [h, UInt64.toNat_ofNat', Nat.mod_eq_of_lt (by omega)]
      rw [hsub] at h
      dsimp only at h
      cases hadd : (self.currentStorageUsage - UInt64.ofNat oldValue.length).checkedAdd
          (UInt64.ofNat value.length) with
      | none =>
          rw [hadd] at h
          cases h
          have hover := UInt64.checkedAdd_eq_none_iff.mp hadd
          rw [hsubNat, UInt64.toNat_ofNat', Nat.mod_eq_of_lt hvalueLen] at hover
          refine .inr ⟨rfl, rfl, ?_⟩
          dsimp only
          omega
      | some usage =>
          rw [hadd] at h
          obtain ⟨hsame, hr⟩ := setRegister_sameStorage h
          obtain ⟨-, husage⟩ := UInt64.checkedAdd_eq_some_iff.mp hadd
          rw [hsubNat, UInt64.toNat_ofNat', Nat.mod_eq_of_lt hvalueLen] at husage
          refine .inl ⟨⟨hsame.numExtraBytesRecord_eq, ?_, ?_⟩, hr⟩ <;>
            rw [hsame.fakeTrie_eq, hsame.numExtraBytesRecord_eq, hsame.currentStorageUsage_eq] <;>
            dsimp only <;> omega

theorem storageRemove_keepsSlack {key : List UInt8} {registerId : ℕ} {r : Except VMLogicError UInt64}
    (hslack : recordsUsage self.numExtraBytesRecord self.fakeTrie ≤ self.currentStorageUsage.toNat)
    (h : self.storageRemove costs key registerId = some (r, self')) :
    KeepsSlack self self' ∧ r ≠ .error (.inconsistentStateError .integerOverflow) := by
  unfold storageRemove at h
  rcases charge_eq_some h with ⟨hsame, e, -, -, rfl⟩ | ⟨_, g₁, -, h⟩
  · exact hsame.keepsSlack_hostError hslack
  rcases guard_eq_some h with ⟨rfl, rfl⟩ | ⟨-, h⟩
  · exact SameStorage.keepsSlack_hostError ⟨rfl, rfl, rfl⟩ hslack
  rcases charge_eq_some h with ⟨hsame, e, -, -, rfl⟩ | ⟨_, g₂, -, h⟩
  · exact keepsSlack_of_hostError hsame ⟨rfl, rfl, rfl⟩ hslack
  rcases guard_eq_some h with ⟨rfl, rfl⟩ | ⟨hkeyRead, h⟩
  · exact SameStorage.keepsSlack_hostError ⟨rfl, rfl, rfl⟩ hslack
  rcases guard_eq_some h with ⟨rfl, rfl⟩ | ⟨-, h⟩
  · exact SameStorage.keepsSlack_hostError ⟨rfl, rfl, rfl⟩ hslack
  rcases charge_eq_some h with ⟨hsame, e, -, -, rfl⟩ | ⟨_, g₃, hkeyByte, h⟩
  · exact keepsSlack_of_hostError hsame ⟨rfl, rfl, rfl⟩ hslack
  rcases charge_eq_some h with ⟨hsame, e, -, -, rfl⟩ | ⟨removed, g₄, hderef, h⟩
  · exact keepsSlack_of_hostError hsame ⟨rfl, rfl, rfl⟩ hslack
  have hwithin₃ : g₃.WithinLimit := by
    have := GasCounter.payPer_withinLimit (congrArg Prod.fst hkeyByte)
    rwa [hkeyByte] at this
  have hwithin₄ : g₄.WithinLimit := by
    have := derefValue_withinLimit hwithin₃ (congrArg Prod.fst hderef)
    rwa [hderef] at this
  have hfees := GasCounter.addTrieFees_mocked hwithin₄ costs.touchingTrieNode costs.readCachedTrieNode
  rcases charge_eq_some h with ⟨-, e, g₅, hfail, -⟩ | ⟨_, g₅, -, h⟩
  · rw [hfail] at hfees
    cases hfees
  have hremoved := derefValue_eq_ok hderef
  dsimp only at hremoved h
  subst hremoved
  have hU := self.currentStorageUsage.toNat_lt
  cases hget : self.fakeTrie.get? key with
  | none =>
      rw [hget] at h
      cases h
      have hrecords := recordsUsage_erase_of_get?_eq_none self.numExtraBytesRecord hget
      refine ⟨⟨rfl, ?_, ?_⟩, by simp⟩ <;> dsimp only <;> rw [hrecords]
      exact hslack
  | some value =>
      -- the whole record comes off the usage, which holds it
      have hrecords := recordsUsage_erase_of_get?_eq_some self.numExtraBytesRecord hget
      have hrecord := record_le_recordsUsage self.numExtraBytesRecord hget
      rw [hget] at h
      dsimp only at h
      cases hsize : recordSize self.numExtraBytesRecord key value with
      | none =>
          rw [hsize] at h
          cases h
      | some size =>
          have hsizeNat := recordSize_eq_some hsize (by omega) (by omega)
          have hsub : self.currentStorageUsage.checkedSub size = some (self.currentStorageUsage - size) := by
            rw [UInt64.checkedSub, if_pos (UInt64.le_iff_toNat_le.mpr (by omega))]
          rw [hsize, Option.bind_some, hsub] at h
          dsimp only at h
          obtain ⟨hsame, hr⟩ := setRegister_sameStorage h
          have husage : (self.currentStorageUsage - size).toNat = self.currentStorageUsage.toNat - size.toNat :=
            UInt64.toNat_sub_of_le _ _ (UInt64.le_iff_toNat_le.mpr (by omega))
          refine ⟨⟨hsame.numExtraBytesRecord_eq, ?_, ?_⟩, hr⟩ <;>
            rw [hsame.fakeTrie_eq, hsame.numExtraBytesRecord_eq, hsame.currentStorageUsage_eq] <;>
            dsimp only <;> omega

end VMLogic

/-! ## Over every sequence of calls -/

open VMLogic

variable {self self' : VMLogic ActionCosts ExtCosts} {costs : StorageExtCosts ExtCosts}

/-- Only `storage_write` fails with `IntegerOverflow`. -/
theorem StorageCall.run_usageStep {call : StorageCall} {r : Except VMLogicError UInt64}
    (hslack : recordsUsage self.numExtraBytesRecord self.fakeTrie ≤ self.currentStorageUsage.toNat)
    (h : call.run costs self = some (r, self')) :
    UsageStep self r self' ∧
      (r = .error (.inconsistentStateError .integerOverflow) →
        ∃ key value registerId, call = .storageWrite key value registerId) := by
  cases call with
  | storageWrite key value registerId =>
      exact ⟨storageWrite_usageStep hslack h, fun _ => ⟨key, value, registerId, rfl⟩⟩
  | storageRemove key registerId =>
      obtain ⟨hkeeps, hr⟩ := storageRemove_keepsSlack hslack h
      exact ⟨.inl ⟨hkeeps, hr⟩, fun hover => absurd hover hr⟩

theorem StorageStep.keepsSlack
    (hslack : recordsUsage self.numExtraBytesRecord self.fakeTrie ≤ self.currentStorageUsage.toNat)
    (hstep : StorageStep costs self self') : KeepsSlack self self' := by
  obtain ⟨call, r, hcall, hr⟩ := hstep
  rcases (StorageCall.run_usageStep hslack hcall).1 with ⟨hkeeps, -⟩ | ⟨-, hover, -⟩
  · exact hkeeps
  · exact absurd hover hr

theorem keepsSlack_of_reachable {self₀ : VMLogic ActionCosts ExtCosts}
    (h₀ : recordsUsage self₀.numExtraBytesRecord self₀.fakeTrie ≤ self₀.currentStorageUsage.toNat)
    (hrun : Relation.ReflTransGen (StorageStep costs) self₀ self) : KeepsSlack self₀ self := by
  induction hrun with
  | refl => exact SameStorage.keepsSlack ⟨rfl, rfl, rfl⟩ h₀
  | tail _ hstep ih => exact ih.trans (hstep.keepsSlack ih.recordsUsage_le)

/-- Storage usage over every sequence of `storage_write` and `storage_remove`
calls that do not fail with `IntegerOverflow`, from an account whose usage
covers its records.  The usage stays at least the records' sum and exceeds it
by the same amount; so it covers every record, and the `checked_sub` of either
function, which takes a record or a value off, never fails.  From every such
state, a call that does not fail with `IntegerOverflow` keeps this, and a call
that does is a `storage_write` whose records need a usage beyond `u64::MAX`. -/
theorem storageUsage_accounted (costs : StorageExtCosts ExtCosts) {self₀ self : VMLogic ActionCosts ExtCosts}
    (h₀ : recordsUsage self₀.numExtraBytesRecord self₀.fakeTrie ≤ self₀.currentStorageUsage.toNat)
    (hrun : Relation.ReflTransGen (StorageStep costs) self₀ self) :
    KeepsSlack self₀ self ∧
      (∀ key value, self.fakeTrie.get? key = some value →
        key.length + value.length + self.numExtraBytesRecord.toNat ≤ self.currentStorageUsage.toNat) ∧
      ∀ (call : StorageCall) (r : Except VMLogicError UInt64) (self' : VMLogic ActionCosts ExtCosts),
        call.run costs self = some (r, self') →
        (r ≠ .error (.inconsistentStateError .integerOverflow) → KeepsSlack self self') ∧
        (r = .error (.inconsistentStateError .integerOverflow) →
          (∃ key value registerId, call = .storageWrite key value registerId) ∧
          2 ^ 64 ≤ self.currentStorageUsage.toNat - recordsUsage self.numExtraBytesRecord self.fakeTrie +
            recordsUsage self'.numExtraBytesRecord self'.fakeTrie) := by
  have hkeeps := keepsSlack_of_reachable h₀ hrun
  have hslack := hkeeps.recordsUsage_le
  refine ⟨hkeeps, fun key value hget => (record_le_recordsUsage _ hget).trans hslack, ?_⟩
  intro call r self' hcall
  obtain ⟨hstep, hwrite⟩ := StorageCall.run_usageStep hslack hcall
  constructor
  · intro hr
    rcases hstep with ⟨hkeeps', -⟩ | ⟨-, hover, -⟩
    · exact hkeeps'
    · exact absurd hover hr
  · intro hr
    rcases hstep with ⟨-, hne⟩ | ⟨-, -, hover⟩
    · exact absurd hr hne
    · exact ⟨hwrite hr, hover⟩

def unitStorageCosts : StorageExtCosts Unit := ⟨(), (), (), (), (), (), (), (), (), (), (), ()⟩

/-- An account of usage 100 with no records, gas that costs nothing and the default limits. -/
def freshLogic : VMLogic Unit Unit :=
  ⟨false, ⟨3, 2, 11⟩, 2048, 4194304, 40, .empty, GasCounter.new ⟨fun _ => 0⟩ 1000 1 1000 false,
    .default, 100⟩

/-- A write, an overwrite and a remove of key `a`: each call returns `Ok`, the record is gone
and the usage is back at 100. -/
theorem storageUsage_accounted_overwriteRemove :
    ∃ self : VMLogic Unit Unit,
      Relation.ReflTransGen (StorageStep unitStorageCosts) freshLogic self ∧
      self.fakeTrie.get? [97] = none ∧ self.currentStorageUsage = 100 ∧
      KeepsSlack freshLogic self ∧
      (∀ key value, self.fakeTrie.get? key = some value →
        key.length + value.length + self.numExtraBytesRecord.toNat ≤ self.currentStorageUsage.toNat) ∧
      ∀ (call : StorageCall) (r : Except VMLogicError UInt64) (self' : VMLogic Unit Unit),
        call.run unitStorageCosts self = some (r, self') →
        (r ≠ .error (.inconsistentStateError .integerOverflow) → KeepsSlack self self') ∧
        (r = .error (.inconsistentStateError .integerOverflow) →
          (∃ key value registerId, call = .storageWrite key value registerId) ∧
          2 ^ 64 ≤ self.currentStorageUsage.toNat - recordsUsage self.numExtraBytesRecord self.fakeTrie +
            recordsUsage self'.numExtraBytesRecord self'.fakeTrie) := by
  obtain ⟨self₁, self₂, self₃, h₁, h₂, h₃, hgone, husage⟩ : ∃ self₁ self₂ self₃,
      freshLogic.storageWrite unitStorageCosts [97] [98] 0 = some (.ok 0, self₁) ∧
      self₁.storageWrite unitStorageCosts [97] [99, 100] 0 = some (.ok 1, self₂) ∧
      self₂.storageRemove unitStorageCosts [97] 0 = some (.ok 1, self₃) ∧
      self₃.fakeTrie.get? [97] = none ∧ self₃.currentStorageUsage = 100 :=
    ⟨_, _, _, rfl, rfl, rfl, rfl, rfl⟩
  have hrun : Relation.ReflTransGen (StorageStep unitStorageCosts) freshLogic self₃ :=
    ((Relation.ReflTransGen.single ⟨.storageWrite [97] [98] 0, .ok 0, h₁, by decide⟩).tail
      ⟨.storageWrite [97] [99, 100] 0, .ok 1, h₂, by decide⟩).tail
        ⟨.storageRemove [97] 0, .ok 1, h₃, by decide⟩
  exact ⟨self₃, hrun, hgone, husage, storageUsage_accounted unitStorageCosts (by decide) hrun⟩

theorem storageWrite_overflow_after_set :
    ∃ self self' : VMLogic Unit Unit,
      recordsUsage self.numExtraBytesRecord self.fakeTrie ≤ self.currentStorageUsage.toNat ∧
      self.storageWrite ⟨(), (), (), (), (), (), (), (), (), (), (), ()⟩ [97] [] 0 =
        some (.error (.inconsistentStateError .integerOverflow), self') ∧
      self.fakeTrie.get? [97] = none ∧ self'.fakeTrie.get? [97] = some [] ∧
      self'.currentStorageUsage.toNat - recordsUsage self'.numExtraBytesRecord self'.fakeTrie ≠
        self.currentStorageUsage.toNat - recordsUsage self.numExtraBytesRecord self.fakeTrie := by
  refine ⟨⟨false, ⟨3, 2, 11⟩, 2048, 4194304, 40, .empty, GasCounter.new ⟨fun _ => 0⟩ 1000 1 1000 false,
    .default, UInt64.ofNat (2 ^ 64 - 1)⟩, _, by decide, rfl, rfl, rfl, by decide⟩

end VmLogic
end Nearcore
